import TtBhLinux.Network.Transmit
import Mathlib.Algebra.BigOperators.Group.List.Basic

/-!
# Receiving a packet

A receive chain goes back to the driver whatever `vdeslirp_recv` has answered, and no length is
compared with the header or the packet.
-/

namespace TtBhLinux.Network
open Common Virtio

def Received.bytes : Received → List U8
  | .nothing _ => []
  | .packet data _ _ => data

structure Fits (result : Received) (descs : List Desc) : Prop where
  packet : 0 < result.bytes.length
  room : 12 + result.bytes.length ≤ chainLength descs

structure HeaderFound (bytes : List U8) : Prop where
  flags : bytes[0]? = some 0
  gso_type : bytes[1]? = some 0
  gso_size : bytes[4]? = some 0 ∧ bytes[5]? = some 0
  num_buffers : bytes[10]? = some 1 ∧ bytes[11]? = some 0

structure ReceivedWell (c : Config) (result : Received) (s : Shared) (descs : List Desc)
    (s' : Shared) : Prop where
  inside : ∀ x, (∀ d ∈ descs, ¬InRegion (c.addr d) d.len.toNat x) → s'.mem x = s.mem x
  header : Fits result descs → HeaderFound (chainBytes c s'.mem descs)
  packet : Fits result descs →
    ((chainBytes c s'.mem descs).drop 12).take result.bytes.length = result.bytes
  kept : ¬Fits result descs → (s'.queues 0).used = (s.queues 0).used

def Receives (c : Config) (fuel : Nat) (answer : Answer Received) (v : Locals VirtioNet)
    (s : Shared) (descs : List Desc) : Prop :=
  ∃ v' s', visit (virtioNetDevice c.queueHeaderSize) c fuel 0 answer v s = .ok (v', s') ∧
    ReceivedWell c answer.result s descs s'

/-- A chain of disjoint buffers is available, and `select` has reported the descriptor of slirp. -/
structure Posted (c : Config) (fuel : Nat) (answer : Answer Received) (v : Locals VirtioNet)
    (s : Shared) (descs : List Desc) : Prop where
  between : Between (virtioNetDevice c.queueHeaderSize) c
    (fun net => ∃ buffer, net = .constructed buffer) v.dev
  available : v.processed 0 ≠ (s.queues 0).avail.idx
  ready : answer.ready = true
  chain : Chain (s.queues 0).desc ((s.queues 0).avail.ring (slot (v.processed 0))) descs
  enough : descs.length ≤ fuel
  disjoint : descs.Pairwise fun d e => Apart (c.addr d) d.len.toNat (c.addr e) e.len.toNat

/-- Where `process_queue_start` is called by the loop: at the descriptors that begin before the
header is complete. -/
def headers (c : Config) : U64 → List Desc → List U64
  | _, [] => []
  | count, d :: rest =>
      if count < c.queueHeaderSize then c.addr d :: headers c (count + d.length) rest
      else headers c (count + d.length) rest

def headerAddrs (c : Config) (before : List Desc) (last : Desc) : List U64 :=
  if before = [] then [c.addr last] else headers c 0 before

def started (addrs : List U64) (work : Work VirtioNet) : Work VirtioNet :=
  addrs.foldl (fun work addr => processQueueStart 0 addr 0 work) work

def receivedMem (c : Config) (mem : U64 → U8) (before : List Desc) (last : Desc)
    (bytes : List U8) : U64 → U8 :=
  store ((headerAddrs c before last).foldl storeHeader mem) (sendAddr c before last) bytes

theorem started_mem (addrs : List U64) (work : Work VirtioNet) :
    (started addrs work).mem = addrs.foldl storeHeader work.mem := by
  induction addrs generalizing work with
  | nil => rfl
  | cons addr rest ih => exact ih _

theorem started_seen (addrs : List U64) {work : Work VirtioNet}
    (seen : work.dev.headerProcessed = true) : (started addrs work).dev.headerProcessed = true := by
  induction addrs generalizing work with
  | nil => exact seen
  | cons addr rest ih => exact ih rfl

theorem complete_receive (addr len : U64) (result : Received) (work : Work VirtioNet) :
    ∃ dev, complete 0 addr len result work = .ok ⟨dev, store work.mem addr result.bytes⟩ := by
  cases result with
  | nothing ret => exact ⟨work.dev, rfl⟩
  | packet data nonempty fits =>
      refine ⟨{ work.dev with buffer := overwrite work.dev.buffer 0 data }, ?_⟩
      simp only [complete, if_true, slice_overwrite, Received.bytes]

section
variable {c : Config} {hs : U64}

theorem headers_cons (positive : 0 < c.queueHeaderSize) (d : Desc) (rest : List Desc) :
    headers c 0 (d :: rest) = c.addr d :: headers c (0 + d.length) rest := if_pos positive

theorem walkList_receive {result : Received} {before : List Desc} {last : Desc}
    (more : ∀ d ∈ before, d.hasNext = true) {count : U64} {work : Work VirtioNet} :
    walkList (virtioNetDevice hs) c 0 result (before ++ [last]) count work =
      walkList (virtioNetDevice hs) c 0 result [last] (count + totalLength before)
        (started (headers c count before) work) := by
  induction before generalizing count work with
  | nil => simp [totalLength, headers, started]
  | cons d rest ih =>
      have others (d : Desc) (member : d ∈ rest) : d.hasNext = true :=
        more d (List.mem_cons_of_mem _ member)
      have total : count + totalLength (d :: rest) = count + d.length + totalLength rest := by
        simp [totalLength, BitVec.add_assoc]
      rw [total, headers]
      by_cases header : count < c.queueHeaderSize
      · have called : (virtioNetDevice hs).entry c 0 d.hasNext count (c.addr d) d.length result
            work = .ok (processQueueStart 0 (c.addr d) 0 work) := by
          rw [more d List.mem_cons_self, Device.entry_start header]
          rfl
        rw [if_pos header, List.cons_append, walkList_cons called, ih others]
        rfl
      · have called : (virtioNetDevice hs).entry c 0 d.hasNext count (c.addr d) d.length result
            work = .ok work := by
          rw [more d List.mem_cons_self, Device.entry_data header]
          rfl
        rw [if_neg header, List.cons_append, walkList_cons called, ih others]

theorem receive_walk {result : Received} {before : List Desc} {last : Desc}
    (terminated : Terminated (before ++ [last])) (positive : 0 < c.queueHeaderSize)
    {work : Work VirtioNet} (idle : work.dev.headerProcessed = false) :
    ∃ dev, walkList (virtioNetDevice c.queueHeaderSize) c 0 result (before ++ [last]) 0 work =
      .ok (totalLength (before ++ [last]),
        ⟨dev, receivedMem c work.mem before last result.bytes⟩) := by
  obtain ⟨more, final⟩ := terminated_append.mp terminated
  have zero : (0 : U64) + totalLength before = totalLength before := BitVec.zero_add _
  rw [walkList_receive more, walkList_last final, totalLength_append, zero, receivedMem, sendAddr,
    headerAddrs]
  show ∃ dev, Except.map _ (processQueueComplete _ _ _ _ result _) = _
  rw [processQueueComplete]
  cases before with
  | nil =>
      obtain ⟨dev, done⟩ := complete_receive (c.addr last + c.queueHeaderSize) last.length result
        (processQueueStart 0 (c.addr last) last.length work)
      refine ⟨{ dev with headerProcessed := false }, ?_⟩
      rw [headers, started, List.foldl_nil, idle, if_neg Bool.false_ne_true, done]
      rfl
  | cons d rest =>
      have seen : (started (headers c 0 (d :: rest)) work).dev.headerProcessed = true := by
        rw [headers_cons positive]
        exact started_seen (headers c (0 + d.length) rest)
          (show (processQueueStart 0 (c.addr d) 0 work).dev.headerProcessed = true from rfl)
      obtain ⟨dev, done⟩ := complete_receive (c.addr last) last.length result
        (started (headers c 0 (d :: rest)) work)
      refine ⟨{ dev with headerProcessed := false }, ?_⟩
      rw [seen, if_pos rfl, done, if_neg (List.cons_ne_nil d rest),
        if_neg (List.cons_ne_nil d rest), started_mem]
      rfl

theorem Posted.visit_eq {fuel : Nat} {answer : Answer Received} {v : Locals VirtioNet} {s : Shared}
    {before : List Desc} {last : Desc} (positive : 0 < c.queueHeaderSize)
    (posted : Posted c fuel answer v s (before ++ [last])) :
    ∃ v' s', visit (virtioNetDevice c.queueHeaderSize) c fuel 0 answer v s = .ok (v', s') ∧
      s'.mem = receivedMem c s.mem before last answer.result.bytes ∧
      (s'.queues 0).used.idx = (s.queues 0).used.idx + 1 := by
  obtain ⟨dev, walked⟩ := @receive_walk c answer.result before last posted.chain.terminated
    positive ⟨v.dev, s.mem⟩ (between_idle posted.between)
  have visited : visit (virtioNetDevice c.queueHeaderSize) c fuel 0 answer v s = _ :=
    visit_of_chain posted.available posted.ready posted.chain posted.enough
  rw [walked] at visited
  refine ⟨_, _, visited, rfl, ?_⟩
  rw [setInterrupt_queues, publish_queue]
  rfl

/-! ## The layouts that work -/

theorem storeHeader_outside (mem : U64 → U8) {a x : U64} (outside : ¬InRegion a 12 x) :
    storeHeader mem a x = mem x := by
  have apart (k n : Nat) (le : k + n ≤ 12) : ¬InRegion (a + .ofNat 64 k) n x := fun inside =>
    outside (inside.shift le (by decide))
  have flags : ¬InRegion a 1 x := fun inside => outside (inside.mono (by decide))
  rw [storeHeader, store_outside _ _ (apart 4 2 (by decide)),
    store_outside _ _ (apart 1 1 (by decide)), store_outside _ _ (apart 10 2 (by decide)),
    store_outside _ _ flags]

theorem storeHeader_found (mem : U64 → U8) (a : U64) :
    HeaderFound (load (storeHeader mem a) a 12) := by
  have offset (k j : U64) : a + k - (a + j) = k - j := add_sub_add_left_eq_sub k j a
  have same (k : U64) : a + k - a = k := add_sub_cancel_left a k
  constructor <;> simp [load, storeHeader, store, offset, same]

theorem HeaderFound.append {bytes : List U8} (found : HeaderFound bytes) (rest : List U8) :
    HeaderFound (bytes ++ rest) := by
  have keeps {i : Nat} {x : U8} (h : bytes[i]? = some x) : (bytes ++ rest)[i]? = some x := by
    rw [List.getElem?_append_left (List.getElem?_eq_some_iff.mp h).1, h]
  exact ⟨keeps found.flags, keeps found.gso_type, found.gso_size.imp keeps keeps,
    found.num_buffers.imp keeps keeps⟩

structure Layout (c : Config) (descs : List Desc) (a b : U64) : Prop where
  bytes : ∀ mem, chainBytes c mem descs = load mem a 12 ++ load mem b (chainLength descs - 12)
  apart : Apart a 12 b (chainLength descs - 12)
  header : ∀ x, InRegion a 12 x → ∃ d ∈ descs, InRegion (c.addr d) d.len.toNat x
  rest : ∀ x, InRegion b (chainLength descs - 12) x → ∃ d ∈ descs, InRegion (c.addr d) d.len.toNat x

theorem Layout.received {descs : List Desc} {a b : U64} (layout : Layout c descs a b)
    {result : Received} (fits : Fits result descs) {s s' : Shared}
    (written : s'.mem = store (storeHeader s.mem a) b result.bytes) :
    ReceivedWell c result s descs s' := by
  obtain ⟨packet, room⟩ := fits
  have within {x : U64} (stored : InRegion b result.bytes.length x) :
      InRegion b (chainLength descs - 12) x := stored.mono (by omega)
  refine ⟨fun x outside => ?_, fun _ => ?_, fun _ => ?_, fun not => absurd ⟨packet, room⟩ not⟩
  · have not_packet : ¬InRegion b result.bytes.length x := fun stored => by
      obtain ⟨d, member, inside⟩ := layout.rest x (within stored)
      exact outside d member inside
    have not_header : ¬InRegion a 12 x := fun stored => by
      obtain ⟨d, member, inside⟩ := layout.header x stored
      exact outside d member inside
    rw [written, store_outside _ _ not_packet, storeHeader_outside _ not_header]
  · have header : load s'.mem a 12 = load (storeHeader s.mem a) a 12 := by
      rw [written]
      exact load_store_apart _ (by decide) fun x stored inside =>
        layout.apart x inside (within stored)
    rw [layout.bytes, header]
    exact (storeHeader_found s.mem a).append _
  · have fit : result.bytes.length ≤ 2 ^ 64 := by
      cases result with
      | nothing _ => exact Nat.zero_le _
      | packet data _ fits => exact fits.trans (by decide)
    obtain ⟨k, split⟩ : ∃ k, chainLength descs - 12 = result.bytes.length + k :=
      ⟨chainLength descs - 12 - result.bytes.length, by omega⟩
    rw [layout.bytes, List.drop_left' (load_length _ _ _), split, load_append,
      List.take_left' (load_length _ _ _), written, load_store _ _ _ fit]

theorem layout_single {d : Desc} (room : 12 ≤ d.len.toNat) :
    Layout c [d] (c.addr d) (c.addr d + 12) := by
  have bound := d.len.isLt
  have total : chainLength [d] = d.len.toNat := by simp [chainLength]
  obtain ⟨k, split⟩ := Nat.exists_eq_add_of_le room
  rw [show c.addr d + 12 = c.addr d + .ofNat 64 12 from rfl]
  refine ⟨fun mem => ?_, ?_, fun x inside => ?_, fun x inside => ?_⟩
  · rw [total, split, Nat.add_sub_cancel_left, ← load_append, ← split]
    simp [chainBytes]
  · rw [total]
    exact apart_next (by omega)
  · exact ⟨d, List.mem_singleton_self d, inside.mono room⟩
  · exact ⟨d, List.mem_singleton_self d, inside.shift (by omega) (by omega)⟩

theorem layout_split {first last : Desc} {rest : List Desc} (size : first.len = 12)
    (empty : ∀ d ∈ rest, d.len = 0)
    (apart : Apart (c.addr first) first.len.toNat (c.addr last) last.len.toNat) :
    Layout c (first :: (rest ++ [last])) (c.addr first) (c.addr last) := by
  have nothing : chainLength rest = 0 := by
    refine List.sum_eq_zero fun n member => ?_
    obtain ⟨d, in_rest, rfl⟩ := List.mem_map.mp member
    rw [empty d in_rest]
    rfl
  have twelve : first.len.toNat = 12 := by rw [size]; rfl
  have left : chainLength (first :: (rest ++ [last])) - 12 = last.len.toNat := by
    rw [← List.cons_append, chainLength_append]
    simp only [chainLength, List.map_cons, List.sum_cons, twelve] at nothing ⊢
    omega
  rw [twelve] at apart
  refine ⟨fun mem => ?_, left ▸ apart, fun x inside => ?_, fun x inside => ?_⟩
  · have skipped : chainBytes c mem rest = [] :=
      List.eq_nil_of_length_eq_zero ((chainBytes_length mem rest).trans nothing)
    rw [left, ← twelve]
    simp only [chainBytes] at skipped
    simp [chainBytes, skipped]
  · exact ⟨first, List.mem_cons_self, twelve ▸ inside⟩
  · exact ⟨last, by simp, left ▸ inside⟩

def total (lens : List U32) : Nat := (lens.map BitVec.toNat).sum

structure RightShape (lens : List U32) (p : Nat) : Prop where
  packet : 0 < p
  room : 12 + p ≤ total lens
  layout : lens.length = 1 ∨ lens.head? = some 12 ∧ total lens.dropLast = 12

theorem total_lens (descs : List Desc) : total (descs.map Desc.len) = chainLength descs := by
  rw [total, chainLength, List.map_map]
  rfl

theorem headers_empty {count : U64} (past : ¬count < c.queueHeaderSize) {rest : List Desc}
    (empty : ∀ d ∈ rest, d.len = 0) : headers c count rest = [] := by
  induction rest generalizing count with
  | nil => rfl
  | cons d rest ih =>
      have none : count + d.length = count := by
        rw [Desc.length, empty d List.mem_cons_self]
        exact BitVec.add_zero count
      rw [headers, if_neg past, none]
      exact ih past fun e member => empty e (List.mem_cons_of_mem d member)

theorem empty_of_total {first : Desc} {rest : List Desc} (size : first.len = 12)
    (all : chainLength (first :: rest) = 12) : ∀ d ∈ rest, d.len = 0 := by
  intro d member
  have twelve : first.len.toNat = 12 := by rw [size]; rfl
  have bound := le_chainLength member
  rw [chainLength_cons, twelve] at all
  have zero : d.len.toNat = 0 := by omega
  exact BitVec.eq_of_toNat_eq zero

section Shape
variable {fuel : Nat} {answer : Answer Received} {v : Locals VirtioNet} {s : Shared}

theorem receives_of_shape (size : c.queueHeaderSize = 12) {descs : List Desc}
    (posted : Posted c fuel answer v s descs)
    (shape : RightShape (descs.map Desc.len) answer.result.bytes.length) :
    Receives c fuel answer v s descs := by
  obtain ⟨packet, room, layout⟩ := shape
  obtain ⟨before, last, rfl⟩ := posted.chain.terminated.exists_last
  obtain ⟨v', s', visited, mem, -⟩ := posted.visit_eq (by rw [size]; decide)
  rw [total_lens] at room
  refine ⟨v', s', visited, ?_⟩
  cases before with
  | nil =>
      have enough : 12 ≤ last.len.toNat := by
        simp only [List.nil_append, chainLength, List.map_cons, List.map_nil, List.sum_cons,
          List.sum_nil] at room
        omega
      refine (layout_single enough).received ⟨packet, room⟩ (mem.trans ?_)
      rw [receivedMem, headerAddrs, sendAddr, size]
      rfl
  | cons first rest =>
      rcases layout with one | ⟨head, all⟩
      · simp at one
      · have twelve : first.len = 12 := by simpa using head
        rw [List.map_append, List.map_singleton, List.dropLast_concat, total_lens] at all
        have empty := empty_of_total twelve all
        have apart := (List.pairwise_cons.mp posted.disjoint).1 last (by simp)
        refine (layout_split twelve empty apart).received ⟨packet, room⟩ (mem.trans ?_)
        have past : ¬(0 : U64) + first.length < c.queueHeaderSize := by
          rw [Desc.length, twelve, size]
          decide
        rw [receivedMem, headerAddrs, sendAddr, if_neg (List.cons_ne_nil first rest),
          if_neg (List.cons_ne_nil first rest), headers_cons (by rw [size]; decide),
          headers_empty past empty]
        rfl

theorem Receives.fits (positive : 0 < c.queueHeaderSize) {descs : List Desc}
    (posted : Posted c fuel answer v s descs) (receives : Receives c fuel answer v s descs) :
    Fits answer.result descs := by
  by_contra not
  obtain ⟨before, last, rfl⟩ := posted.chain.terminated.exists_last
  obtain ⟨v', s', visited, -, used⟩ := posted.visit_eq positive
  obtain ⟨_, _, same, well⟩ := receives
  cases visited.symm.trans same
  rw [well.kept not] at used
  simp at used

theorem storeHeader_ne {mem : U64 → U8} {x : U64} {b : U8} (old : mem x ≠ b) (zero : b ≠ 0)
    (one : b ≠ 1) (a : U64) : storeHeader mem a x ≠ b := by
  have no_zero : b ∉ [(0 : U8)] := by simpa using zero
  have no_zeros : b ∉ [(0 : U8), 0] := by simpa using zero
  have no_one : b ∉ [(1 : U8), 0] := by simpa using ⟨one, zero⟩
  exact store_ne (store_ne (store_ne (store_ne old no_zero) no_one) no_zero) no_zeros

theorem headers_ne {mem : U64 → U8} {x : U64} {b : U8} (old : mem x ≠ b) (zero : b ≠ 0)
    (one : b ≠ 1) (addrs : List U64) : addrs.foldl storeHeader mem x ≠ b := by
  induction addrs generalizing mem with
  | nil => exact old
  | cons a rest ih => exact ih (storeHeader_ne old zero one a)

section Blank
variable {first last : Desc} {rest : List Desc} {mem : U64 → U8} {others : List U64} {p : Nat}
  (blank : ∀ x, s.mem x = 0x55)
  (written : mem = store (others.foldl storeHeader (storeHeader s.mem (c.addr first))) (c.addr last)
    (List.replicate p 0xaa))
include blank written

/-- `num_buffers` is stored at bytes 10 and 11 whatever the length of the first descriptor is. -/
theorem header_inside
    (alone : ∀ d ∈ rest ++ [last], Apart (c.addr first) 12 (c.addr d) d.len.toNat)
    (inside : ∀ x, (∀ d ∈ first :: rest ++ [last], ¬InRegion (c.addr d) d.len.toNat x) →
      mem x = s.mem x) : 12 ≤ first.len.toNat := by
  by_contra short
  have in_header : InRegion (c.addr first) 12 (c.addr first + .ofNat 64 11) :=
    inRegion_offset _ (by decide) (by decide)
  have outside : ∀ d ∈ first :: rest ++ [last],
      ¬InRegion (c.addr d) d.len.toNat (c.addr first + .ofNat 64 11) := by
    intro d member
    rcases List.mem_cons.mp member with rfl | member
    · rw [InRegion, add_sub_cancel_left, BitVec.toNat_ofNat]
      omega
    · exact alone d member _ in_header
  have changed : storeHeader s.mem (c.addr first) (c.addr first + .ofNat 64 11) ≠ 0x55 := by
    have found := (storeHeader_found s.mem (c.addr first)).num_buffers.2
    have byte : storeHeader s.mem (c.addr first) (c.addr first + .ofNat 64 11) = 0 := by
      simpa [load] using found
    rw [byte]
    decide
  have kept := inside _ outside
  rw [blank, written] at kept
  exact store_ne (headers_ne changed (by decide) (by decide) _) (by simp) kept

theorem header_only (some_packet : 0 < p)
    (spaced : ∀ d ∈ first :: rest, Apart (c.addr d) d.len.toNat (c.addr last) p)
    (packet : ((chainBytes c mem (first :: rest ++ [last])).drop 12).take p =
      List.replicate p 0xaa) : chainLength (first :: rest) ≤ 12 := by
  by_contra beyond
  have byte : (chainBytes c mem (first :: rest ++ [last]))[12]? = some 0xaa := by
    have front := congrArg (fun bytes => bytes[0]?) packet
    simpa [List.getElem?_take, List.getElem?_drop, some_packet] using front
  have early : (chainBytes c mem (first :: rest))[12]? = some 0xaa := by
    rw [← byte, chainBytes, chainBytes, List.flatMap_append, List.getElem?_append_left]
    rw [← chainBytes, chainBytes_length]
    omega
  obtain ⟨d, member, loaded⟩ := List.mem_flatMap.mp (List.mem_of_getElem? early)
  obtain ⟨i, lt, at_i⟩ := List.getElem_of_mem loaded
  rw [load_getElem, written] at at_i
  rw [load_length] at lt
  have apart := spaced d member _ (inRegion_offset (c.addr d) lt (by have := d.len.isLt; omega))
  rw [store_outside _ _ (by rwa [List.length_replicate])] at at_i
  have first_header : storeHeader s.mem (c.addr first) (c.addr d + .ofNat 64 i) ≠ 0xaa :=
    storeHeader_ne (by rw [blank]; decide) (by decide) (by decide) _
  exact headers_ne first_header (by decide) (by decide) _ at_i

end Blank

/-- In a blank memory, a packet of marked bytes shows where the header and the packet have gone. -/
theorem shape_of_receives (size : c.queueHeaderSize = 12) {first last : Desc} {rest : List Desc}
    {p : Nat} (posted : Posted c fuel answer v s (first :: rest ++ [last]))
    (blank : ∀ x, s.mem x = 0x55) (marked : answer.result.bytes = List.replicate p 0xaa)
    (alone : ∀ d ∈ rest ++ [last], Apart (c.addr first) 12 (c.addr d) d.len.toNat)
    (spaced : ∀ d ∈ first :: rest, Apart (c.addr d) d.len.toNat (c.addr last) p)
    (receives : Receives c fuel answer v s (first :: rest ++ [last])) :
    RightShape ((first :: rest ++ [last]).map Desc.len) p := by
  have positive : 0 < c.queueHeaderSize := by rw [size]; decide
  have fits := receives.fits positive posted
  obtain ⟨v', s', visited, mem, -⟩ := posted.visit_eq positive
  obtain ⟨_, _, same, well⟩ := receives
  cases visited.symm.trans same
  have length : answer.result.bytes.length = p := by rw [marked, List.length_replicate]
  rw [receivedMem, headerAddrs, sendAddr, if_neg (List.cons_ne_nil first rest),
    if_neg (List.cons_ne_nil first rest), marked, headers_cons positive] at mem
  obtain ⟨some_packet, room⟩ := fits
  have packet := well.packet ⟨some_packet, room⟩
  rw [length, marked] at packet
  rw [length] at some_packet room
  have long := header_inside blank mem alone well.inside
  have header := header_only blank mem some_packet spaced packet
  rw [chainLength_cons] at header
  refine ⟨some_packet, by rwa [total_lens], .inr ⟨?_, ?_⟩⟩
  · have twelve : first.len = 12 := BitVec.eq_of_toNat_eq (by show _ = 12; omega)
    simp [twelve]
  · rw [List.map_append, List.map_singleton, List.dropLast_concat, total_lens, chainLength_cons]
    omega

end Shape

/-! ## A chain of any shape -/

def placedDesc (c : Config) (lens : List U32) (i : Nat) : Desc where
  addr := c.startingAddress + (.ofNat 64 (i * 2 ^ 33) - c.memory)
  len := lens[i]?.getD 0
  flags := if i + 1 < lens.length then 3 else 2
  next := .ofNat 16 (i + 1)

def placed (c : Config) (lens : List U32) : List Desc :=
  (List.range lens.length).map (placedDesc c lens)

def blankShared (table : Nat → Desc) : Shared where
  regs := .constructed (virtioNet 0 0 32)
  interruptRegister := 0
  queues _ := ⟨table, ⟨1, fun _ => 0⟩, ⟨0, fun _ => ⟨0, 0⟩⟩⟩
  mem _ := 0x55

def marked (p : Nat) : Received :=
  if h : 0 < p ∧ p ≤ packetSize then
    .packet (List.replicate p 0xaa) (by simpa using h.1) (by simpa using h.2)
  else .nothing 0

theorem marked_bytes {p : Nat} (recv : p ≤ packetSize) :
    (marked p).bytes = List.replicate p 0xaa := by
  by_cases some_packet : 0 < p
  · rw [marked, dif_pos ⟨some_packet, recv⟩, Received.bytes]
  · obtain rfl : p = 0 := by omega
    rfl

@[simp] theorem addr_placed (lens : List U32) (i : Nat) :
    c.addr (placedDesc c lens i) = .ofNat 64 (i * 2 ^ 33) := by
  simp [Config.addr, Config.hostPointer, placedDesc]

theorem placed_lens (lens : List U32) : (placed c lens).map Desc.len = lens := by
  apply List.ext_getElem (by simp [placed])
  intro i left right
  simp [placed, placedDesc, right]

theorem placed_chain {lens : List U32} (short : lens.length ≤ 16384) (k : Nat) :
    ∀ i, i + k + 1 = lens.length →
      Chain (placedDesc c lens) (.ofNat 16 i) ((List.range' i (k + 1)).map (placedDesc c lens)) := by
  have at_slot (i : Nat) (lt : i < lens.length) : slot (.ofNat 16 i) = i := by
    rw [slot_eq, BitVec.toNat_ofNat]
    omega
  induction k with
  | zero =>
      intro i last
      have final : (placedDesc c lens i).hasNext = false := by
        have stops : ¬i + 1 < lens.length := by omega
        simp [placedDesc, Desc.hasNext, stops]
      have chain := @Chain.last (placedDesc c lens) (.ofNat 16 i)
      rw [at_slot i (by omega)] at chain
      exact chain final
  | succ k ih =>
      intro i others
      have more : (placedDesc c lens i).hasNext = true := by
        have goes : i + 1 < lens.length := by omega
        simp [placedDesc, Desc.hasNext, goes]
      have chain := @Chain.next (placedDesc c lens) (.ofNat 16 i)
        ((List.range' (i + 1) (k + 1)).map (placedDesc c lens))
      rw [at_slot i (by omega)] at chain
      rw [List.range'_succ]
      exact chain more (ih (i + 1) (by omega))

theorem placed_apart {i j n m : Nat} (lt : i < j) (bound : j ≤ 16384) (left : n ≤ 2 ^ 32)
    (right : m ≤ 2 ^ 32) :
    Apart (.ofNat 64 (i * 2 ^ 33)) n (.ofNat 64 (j * 2 ^ 33) : U64) m := by
  have at_i : (BitVec.ofNat 64 (i * 2 ^ 33)).toNat = i * 2 ^ 33 := by
    rw [BitVec.toNat_ofNat]
    omega
  have at_j : (BitVec.ofNat 64 (j * 2 ^ 33)).toNat = j * 2 ^ 33 := by
    rw [BitVec.toNat_ofNat]
    omega
  exact apart_of_le (by omega) (by omega)

theorem placed_posted {lens : List U32} (posts : lens ≠ []) (short : lens.length ≤ 16384)
    (result : Received) :
    Posted c lens.length ⟨false, true, result⟩ idleNet (blankShared (placedDesc c lens))
      (placed c lens) where
  between := .constructed ⟨_, rfl⟩
  available := by show (0 : U16) ≠ 1; decide
  ready := rfl
  chain := by
    obtain ⟨k, length⟩ := Nat.exists_eq_succ_of_ne_zero (mt List.length_eq_zero_iff.mp posts)
    have chain := placed_chain (c := c) short k 0 (by omega)
    rwa [← Nat.succ_eq_add_one k, ← length, ← List.range_eq_range'] at chain
  enough := by simp [placed]
  disjoint := by
    rw [placed, List.pairwise_map]
    refine List.pairwise_lt_range.imp_of_mem fun {i j} _ member lt => ?_
    have bound := List.mem_range.mp member
    rw [addr_placed, addr_placed]
    exact placed_apart lt (by omega) (Nat.le_of_lt (BitVec.isLt _)) (Nat.le_of_lt (BitVec.isLt _))

theorem placed_split {lens : List U32} {m : Nat} (length : lens.length = m + 2) :
    placed c lens = placedDesc c lens 0 :: (List.range' 1 m).map (placedDesc c lens) ++
      [placedDesc c lens (m + 1)] := by
  rw [placed, length, List.range_succ, List.map_append, List.range_eq_range', List.range'_succ]
  rfl

theorem placed_shape (size : c.queueHeaderSize = 12) {lens : List U32} {p : Nat} (posts : lens ≠ [])
    (short : lens.length ≤ 16384) (recv : p ≤ packetSize)
    (receives : Receives c lens.length ⟨false, true, marked p⟩ idleNet
      (blankShared (placedDesc c lens)) (placed c lens)) : RightShape lens p := by
  have posted := placed_posted (c := c) posts short (marked p)
  have bytes := marked_bytes recv
  have limit : p ≤ 2 ^ 32 := recv.trans (by decide)
  by_cases one : lens.length = 1
  · obtain ⟨packet, room⟩ := receives.fits (by rw [size]; decide) posted
    rw [← total_lens, placed_lens] at room
    simp only [bytes, List.length_replicate] at packet room
    exact ⟨packet, room, .inl one⟩
  · obtain ⟨m, length⟩ : ∃ m, lens.length = m + 2 := by
      have some_desc := List.length_pos_of_ne_nil posts
      exact ⟨lens.length - 2, by omega⟩
    rw [← placed_lens (c := c) lens]
    rw [placed_split length] at posted receives ⊢
    refine shape_of_receives size posted (fun _ => rfl) bytes ?_ ?_ receives
    · intro d member
      have later : ∃ j, 0 < j ∧ j ≤ m + 1 ∧ d = placedDesc c lens j := by
        rcases List.mem_append.mp member with member | member
        · obtain ⟨j, range, rfl⟩ := List.mem_map.mp member
          have := List.mem_range'_1.mp range
          exact ⟨j, by omega, by omega, rfl⟩
        · exact ⟨m + 1, by omega, le_rfl, List.mem_singleton.mp member⟩
      obtain ⟨j, pos, le, rfl⟩ := later
      rw [addr_placed, addr_placed]
      exact placed_apart pos (by omega) (by decide) (Nat.le_of_lt (BitVec.isLt _))
    · intro d member
      have earlier : ∃ i, i < m + 1 ∧ d = placedDesc c lens i := by
        rcases List.mem_cons.mp member with rfl | member
        · exact ⟨0, by omega, rfl⟩
        · obtain ⟨i, range, rfl⟩ := List.mem_map.mp member
          have := List.mem_range'_1.mp range
          exact ⟨i, by omega, rfl⟩
      obtain ⟨i, lt, rfl⟩ := earlier
      rw [addr_placed, addr_placed]
      exact placed_apart lt (by omega) (Nat.le_of_lt (BitVec.isLt _)) limit

end

theorem receive_iff (startingAddress memory : U64) (interruptNumber : Nat) (lens : List U32) (p : Nat)
    (posts : lens ≠ []) (short : lens.length ≤ queueSize.toNat) (recv : p ≤ packetSize) :
    (∀ fuel answer v s descs, descs.map Desc.len = lens → answer.result.bytes.length = p →
      Posted (virtioNet startingAddress memory interruptNumber) fuel answer v s descs →
      Receives (virtioNet startingAddress memory interruptNumber) fuel answer v s descs) ↔
      RightShape lens p := by
  constructor
  · intro all
    have length : (marked p).bytes.length = p := by rw [marked_bytes recv, List.length_replicate]
    exact placed_shape rfl posts short recv
      (all _ ⟨false, true, marked p⟩ _ _ _ (placed_lens lens) length (placed_posted posts short _))
  · rintro shape fuel answer v s descs rfl rfl posted
    exact receives_of_shape rfl posted shape

/-! ## One buffer of sixteen bytes -/

theorem sixteen_posted (result : Received) :
    Posted (virtioNet 0 0 32) 1 ⟨false, true, result⟩ idleNet
      (blankShared (placedDesc (virtioNet 0 0 32) [16])) (placed (virtioNet 0 0 32) [16]) := by
  have posts : [(16 : U32)] ≠ [] := by decide
  exact placed_posted posts (by decide) result

theorem receive_sixteen :
    Receives (virtioNet 0 0 32) 1 ⟨false, true, marked 4⟩ idleNet
      (blankShared (placedDesc (virtioNet 0 0 32) [16])) (placed (virtioNet 0 0 32) [16]) :=
  (receive_iff 0 0 32 [16] 4 (by decide) (by decide) (by decide)).mpr
    ⟨by decide, by decide, .inl rfl⟩ _ _ _ _ _ (placed_lens [16]) rfl (sixteen_posted _)

theorem empty_buffer_returned :
    ¬∀ (fuel : Nat) (answer : Answer Received) (v : Locals VirtioNet) (s : Shared)
      (descs : List Desc), Posted (virtioNet 0 0 32) fuel answer v s descs →
      Receives (virtioNet 0 0 32) fuel answer v s descs := by
  intro all
  have posted := sixteen_posted (.nothing 0)
  exact absurd ((all _ _ _ _ _ posted).fits (by decide) posted).packet (by decide)

end TtBhLinux.Network
