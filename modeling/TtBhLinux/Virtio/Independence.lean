import TtBhLinux.Common.Outcomes
import TtBhLinux.Disk.Footprint
import TtBhLinux.Network.Transmit
import TtBhLinux.Virtio.Accesses

/-!
# Independence of chains

Two devices with different histories process the same next chain. What a device keeps of earlier
chains is either set anew before it is used, or not used at all.
-/

namespace TtBhLinux.Virtio
open Common

section
variable {σ ρ : Type*} {dev : Device σ ρ} {c : Config}

/-! ## Two walks over one chain -/

/-- `R` relates the states between two callbacks, given the bytes that are counted, and `Q` the
states after the last one. -/
structure Unwinding (dev : Device σ ρ) (c : Config) (q : Nat) (result : ρ)
    (R : U64 → Work σ → Work σ → Prop) (Q : Work σ → Work σ → Prop) : Prop where
  more : ∀ {count addr len work₁ work₂}, R count work₁ work₂ →
    SameOutcome (R (count + len)) (dev.entry c q true count addr len result work₁)
      (dev.entry c q true count addr len result work₂)
  last : ∀ {count addr len work₁ work₂}, R count work₁ work₂ →
    SameOutcome Q (dev.entry c q false count addr len result work₁)
      (dev.entry c q false count addr len result work₂)

variable {q : Nat} {result : ρ} {R : U64 → Work σ → Work σ → Prop} {Q : Work σ → Work σ → Prop}

theorem Unwinding.walk (unwinding : Unwinding dev c q result R Q) (table : Nat → Desc)
    (fuel : Nat) (i : U16) {count : U64} {work₁ work₂ : Work σ} (related : R count work₁ work₂) :
    SameOutcome (fun done₁ done₂ => done₁.1 = done₂.1 ∧ Q done₁.2 done₂.2)
      (walk dev c table q result fuel i count work₁)
      (walk dev c table q result fuel i count work₂) := by
  induction fuel generalizing i count work₁ work₂ with
  | zero => exact .error Stop.outOfFuel
  | succ fuel ih =>
      simp only [Virtio.walk]
      cases more : (table (slot i)).hasNext with
      | true =>
          generalize outcome₁ : dev.entry c q true count _ _ result work₁ = x
          generalize outcome₂ : dev.entry c q true count _ _ result work₂ = y
          have same := outcome₁ ▸ outcome₂ ▸ unwinding.more related
          cases same with
          | error f => exact .error _
          | ok next => exact ih _ next
      | false =>
          generalize outcome₁ : dev.entry c q false count _ _ result work₁ = x
          generalize outcome₂ : dev.entry c q false count _ _ result work₂ = y
          have same := outcome₁ ▸ outcome₂ ▸ unwinding.last related
          cases same with
          | error f => exact .error _
          | ok done => exact .ok ⟨rfl, done⟩

structure SameNext (q : Nat) (s : Shared) (v₁ v₂ : Locals σ) : Prop where
  first : v₁.processed q ≠ (s.queues q).avail.idx
  second : v₂.processed q ≠ (s.queues q).avail.idx
  head : (s.queues q).avail.ring (slot (v₁.processed q)) =
    (s.queues q).avail.ring (slot (v₂.processed q))

def SameEffect (S : σ → σ → Prop) (done₁ done₂ : Locals σ × Shared) : Prop :=
  S done₁.1.dev done₂.1.dev ∧ done₁.2 = done₂.2

theorem Unwinding.visit {answer : Answer ρ} (unwinding : Unwinding dev c q answer.result R Q)
    {v₁ v₂ : Locals σ} {s : Shared} (next : SameNext q s v₁ v₂) (fuel : Nat)
    (related : R 0 ⟨v₁.dev, s.mem⟩ ⟨v₂.dev, s.mem⟩) {S : σ → σ → Prop} (idle : S v₁.dev v₂.dev)
    (finish : ∀ work₁ work₂, Q work₁ work₂ →
      S work₁.dev work₂.dev ∧ work₁.mem = work₂.mem) :
    SameOutcome (SameEffect S) (visit dev c fuel q answer v₁ s)
      (visit dev c fuel q answer v₂ s) := by
  unfold Virtio.visit
  cases ready : dev.queueHasData q answer.ready with
  | false =>
      simp only [Bool.false_eq_true, and_false, if_false]
      exact .ok ⟨idle, rfl⟩
  | true =>
      simp only [ne_eq, next.first, next.second, not_false_eq_true, and_self, if_true, next.head]
      generalize outcome₁ : Virtio.walk dev c _ q answer.result fuel _ 0 ⟨v₁.dev, s.mem⟩ = x
      generalize outcome₂ : Virtio.walk dev c _ q answer.result fuel _ 0 ⟨v₂.dev, s.mem⟩ = y
      have same := outcome₁ ▸ outcome₂ ▸ unwinding.walk (s.queues q).desc fuel
        ((s.queues q).avail.ring (slot (v₂.processed q))) related
      cases same with
      | error stop => exact .error _
      | ok done =>
          obtain ⟨count, finished⟩ := done
          obtain ⟨devs, mem⟩ := finish _ _ finished
          refine .ok ⟨devs, ?_⟩
          simp only [count, mem]

/-! ## The calls of a walk -/

/-- The callbacks in order, each with its descriptor and the state before it. -/
def walkCalls (dev : Device σ ρ) (c : Config) (table : Nat → Desc) (q : Nat) (result : ρ) :
    Nat → U16 → U64 → Work σ → List (Callback × Desc × Work σ)
  | 0, _, _, _ => []
  | fuel + 1, desc_idx, num_bytes_written, work =>
      let d := table (slot desc_idx)
      (c.callback d.hasNext num_bytes_written, d, work) ::
        match dev.entry c q d.hasNext num_bytes_written (c.addr d) d.length result work with
        | .error _ => []
        | .ok work =>
            if d.hasNext then
              walkCalls dev c table q result fuel d.next (num_bytes_written + d.length) work
            else []

def lastStart (calls : List (Callback × Desc × Work σ)) : Option Desc :=
  ((calls.filter fun call => call.1 = .start).getLast?).map fun call => call.2.1

theorem lastStart_append (calls : List (Callback × Desc × Work σ)) (call : Callback) (d : Desc)
    (work : Work σ) :
    lastStart (calls ++ [(call, d, work)]) = if call = .start then some d else lastStart calls := by
  by_cases start : call = .start <;> simp [lastStart, List.filter_append, start]

end

/-! ## VirtioBlk -/

/-- `req` may still point to the header of an earlier chain until `process_queue_start` is called.
-/
structure BlkRelated (c : Config) (count : U64) (work₁ work₂ : Work Disk.VirtioBlk) : Prop where
  mem : work₁.mem = work₂.mem
  image : work₁.dev.mappedData = work₂.dev.mappedData
  req : ¬count < c.queueHeaderSize → work₁.dev.req = work₂.dev.req

theorem blk_unwinding (fileSize : U64) (c : Config) (q : Nat) (result : Unit) :
    Unwinding (Disk.virtioBlkDevice fileSize) c q result (BlkRelated c) fun work₁ work₂ =>
      work₁.dev.mappedData = work₂.dev.mappedData ∧ work₁.mem = work₂.mem where
  more {count addr len work₁ work₂} related := by
    obtain ⟨⟨req₁, image₁⟩, mem₁⟩ := work₁
    obtain ⟨⟨req₂, image₂⟩, mem₂⟩ := work₂
    obtain ⟨mem, image, req⟩ := related
    dsimp only at mem image req
    subst mem image
    by_cases header : count < c.queueHeaderSize
    · rw [Device.entry_start header]
      simp only [Disk.virtioBlkDevice, Disk.processQueueStart]
      split
      · exact .error _
      · exact .ok ⟨rfl, rfl, fun _ => rfl⟩
    · rw [req header]
      exact .refl (fun _ => ⟨rfl, rfl, fun _ => rfl⟩) _
  last {count addr len work₁ work₂} related := by
    rw [Device.entry_complete]
    simp only [Disk.virtioBlkDevice, Disk.processQueueComplete]
    split
    · exact .error _
    · exact .ok ⟨related.image, by rw [related.mem]⟩

theorem blk_own_header {fileSize : U64} {c : Config} {table : Nat → Desc} {q : Nat} {result : Unit}
    {fuel : Nat} {i : U16} {count : U64} {work : Work Disk.VirtioBlk}
    (earlier : List (Callback × Desc × Work Disk.VirtioBlk))
    {before after : List (Callback × Desc × Work Disk.VirtioBlk)} {d : Desc}
    {served : Work Disk.VirtioBlk}
    (started : ¬count < c.queueHeaderSize →
      ∃ header, lastStart earlier = some header ∧ work.dev.req = c.addr header)
    (calls : walkCalls (Disk.virtioBlkDevice fileSize) c table q result fuel i count work =
      before ++ (.data, d, served) :: after) :
    ∃ header, lastStart (earlier ++ before) = some header ∧ served.dev.req = c.addr header := by
  induction fuel generalizing i count work earlier before with
  | zero => simp [walkCalls] at calls
  | succ fuel ih =>
      rw [walkCalls] at calls
      cases before with
      | nil =>
          obtain ⟨first, -⟩ := List.cons.inj calls
          obtain ⟨data, descriptor⟩ := Prod.mk.inj first
          obtain ⟨-, rfl⟩ := Prod.mk.inj descriptor
          rw [List.append_nil]
          exact started (Config.callback_data data)
      | cons first before =>
          obtain ⟨rfl, rest⟩ := List.cons.inj calls
          split at rest
          · simp at rest
          · rename_i next called
            split at rest
            · rename_i more
              rw [more, Device.entry_eq] at called
              have req := Disk.blk_req called
              rw [List.append_cons]
              refine ih _ (fun _ => ?_) rest
              rw [lastStart_append, more, req]
              by_cases start : c.callback true count = .start
              · exact ⟨_, if_pos start, if_pos start⟩
              · rw [if_neg start, if_neg start]
                exact started (mt Config.callback_start.mpr start)
            · simp at rest

/-! ## VirtioNet -/

def SameSent (net₁ net₂ net₁' net₂' : Network.VirtioNet) : Prop :=
  ∃ packets, net₁'.sent = net₁.sent ++ packets ∧ net₂'.sent = net₂.sent ++ packets

theorem SameSent.refl (net₁ net₂ : Network.VirtioNet) : SameSent net₁ net₂ net₁ net₂ :=
  ⟨[], by simp, by simp⟩

/-- The buffers may differ: what is read of them has been written before. -/
structure NetRelated (net₁ net₂ : Network.VirtioNet) (work₁ work₂ : Work Network.VirtioNet) :
    Prop where
  mem : work₁.mem = work₂.mem
  headerProcessed : work₁.dev.headerProcessed = work₂.dev.headerProcessed
  sent : SameSent net₁ net₂ work₁.dev work₂.dev

section
variable {net₁ net₂ : Network.VirtioNet} {work₁ work₂ : Work Network.VirtioNet}

theorem NetRelated.start (related : NetRelated net₁ net₂ work₁ work₂) (q : Nat) (addr len : U64) :
    NetRelated net₁ net₂ (Network.processQueueStart q addr len work₁)
      (Network.processQueueStart q addr len work₂) := by
  refine ⟨?_, rfl, related.sent⟩
  simp only [Network.processQueueStart, related.mem]

theorem NetRelated.done (related : NetRelated net₁ net₂ work₁ work₂) :
    NetRelated net₁ net₂ (Network.headerDone work₁) (Network.headerDone work₂) :=
  ⟨related.mem, rfl, related.sent⟩

theorem NetRelated.complete (related : NetRelated net₁ net₂ work₁ work₂) (q : Nat) (addr len : U64)
    (result : Network.Received) :
    SameOutcome (NetRelated net₁ net₂) (Network.complete q addr len result work₁)
      (Network.complete q addr len result work₂) := by
  obtain ⟨mem, headerProcessed, packets, sent₁, sent₂⟩ := related
  by_cases receive : q = 0
  · subst receive
    cases result with
    | nothing ret => exact .ok ⟨mem, headerProcessed, packets, sent₁, sent₂⟩
    | packet data nonempty fits =>
        refine .ok ⟨?_, headerProcessed, packets, sent₁, sent₂⟩
        simp only [slice_overwrite, mem]
  · by_cases transmit : q = 1
    · subst transmit
      rw [Network.complete_transmit, Network.complete_transmit]
      split
      · refine .ok ⟨mem, headerProcessed, packets ++ [load work₂.mem addr len.toNat], ?_, ?_⟩
        · simp [sent₁, mem]
        · simp [sent₂]
      · exact .error _
    · simp only [Network.complete, receive, transmit, if_false]
      exact .ok ⟨mem, headerProcessed, packets, sent₁, sent₂⟩

end

theorem net_unwinding (hs : U64) (c : Config) (q : Nat) (result : Network.Received)
    (net₁ net₂ : Network.VirtioNet) :
    Unwinding (Network.virtioNetDevice hs) c q result (fun _ => NetRelated net₁ net₂)
      (NetRelated net₁ net₂) where
  more {count addr len work₁ work₂} related := by
    by_cases header : count < c.queueHeaderSize
    · rw [Device.entry_start header]
      exact .ok (related.start q addr len)
    · rw [Device.entry_data header]
      exact .ok related
  last {count addr len work₁ work₂} related := by
    rw [Device.entry_complete]
    simp only [Network.virtioNetDevice, Network.processQueueComplete, related.headerProcessed]
    have completed {x y : Except Fault (Work Network.VirtioNet)}
        (same : SameOutcome (NetRelated net₁ net₂) x y) :
        SameOutcome (NetRelated net₁ net₂) (x.map Network.headerDone) (y.map Network.headerDone) :=
      same.map fun _ _ related => related.done
    apply completed
    split
    · exact related.complete q addr len result
    · exact (related.start q addr len).complete q _ len result

/-! ## Histories -/

def BlkHistory (fileSize : U64) (c : Config) : Disk.VirtioBlk → Prop :=
  Between (Disk.virtioBlkDevice fileSize) c fun _ => True

def NetHistory (c : Config) : Network.VirtioNet → Prop :=
  Between (Network.virtioNetDevice c.queueHeaderSize) c fun net =>
    ∃ buffer, net = .constructed buffer

structure ChainsIndependent (blk net : Config) : Prop where
  image : ∀ fileSize fuel q answer s v₁ v₂, BlkHistory fileSize blk v₁.dev →
    BlkHistory fileSize blk v₂.dev → SameNext q s v₁ v₂ →
    v₁.dev.mappedData = v₂.dev.mappedData →
    SameOutcome (SameEffect fun blk₁ blk₂ => blk₁.mappedData = blk₂.mappedData)
      (visit (Disk.virtioBlkDevice fileSize) blk fuel q answer v₁ s)
      (visit (Disk.virtioBlkDevice fileSize) blk fuel q answer v₂ s)
  sent : ∀ fuel q answer s v₁ v₂, NetHistory net v₁.dev → NetHistory net v₂.dev →
    SameNext q s v₁ v₂ →
    SameOutcome (SameEffect (SameSent v₁.dev v₂.dev))
      (visit (Network.virtioNetDevice net.queueHeaderSize) net fuel q answer v₁ s)
      (visit (Network.virtioNetDevice net.queueHeaderSize) net fuel q answer v₂ s)
  idle : ∀ dev, NetHistory net dev → dev.headerProcessed = false
  own_header : ∀ fileSize table fuel q result i work before d served after,
    walkCalls (Disk.virtioBlkDevice fileSize) blk table q result fuel i 0 work =
      before ++ (.data, d, served) :: after →
    ∃ header, lastStart before = some header ∧ served.dev.req = blk.addr header

theorem chains_independent (startingAddress memory : U64) (interruptNumber : Nat) :
    ChainsIndependent (virtioBlk startingAddress memory interruptNumber)
      (virtioNet startingAddress memory interruptNumber) where
  image fileSize fuel q answer s v₁ v₂ _ _ next image := by
    have first : ¬¬(0 : U64) < 16 := by decide
    exact (blk_unwinding fileSize _ q answer.result).visit next fuel
      ⟨rfl, image, fun past => absurd past first⟩ image fun _ _ done => done
  sent fuel q answer s v₁ v₂ history₁ history₂ next := by
    have idle : v₁.dev.headerProcessed = v₂.dev.headerProcessed :=
      (Network.between_idle history₁).trans (Network.between_idle history₂).symm
    exact (net_unwinding _ _ q answer.result v₁.dev v₂.dev).visit next fuel
      ⟨rfl, idle, .refl _ _⟩ (.refl _ _) fun _ _ done => ⟨done.sent, done.mem⟩
  idle dev history := Network.between_idle history
  own_header fileSize table fuel q result i work before d served after calls := by
    have first : ¬¬(0 : U64) < 16 := by decide
    exact blk_own_header [] (fun past => absurd past first) calls

/-- The chain is the first one for one device, for the other it comes after one that was sent. -/
theorem chains_independent_transmit :
    let s : Shared := { Network.transmitShared Network.splitTable with
      queues _ := ⟨Network.splitTable, ⟨2, fun _ => 0⟩, ⟨1, fun _ => ⟨0, 0⟩⟩⟩ }
    let visits := visit (Network.virtioNetDevice 12) (virtioNet 0 0 32) 2 1 Network.noPacket
    ∃ v s', visits Network.idleNet (Network.transmitShared Network.splitTable) = .ok (v, s') ∧
      SameOutcome (SameEffect (SameSent Network.idleNet.dev v.dev)) (visits Network.idleNet s)
        (visits v s) := by
  intro s visits
  have run : ∃ v s', visits Network.idleNet (Network.transmitShared Network.splitTable) =
      .ok (v, s') ∧ v.processed 1 = 1 := ⟨_, _, rfl, rfl⟩
  obtain ⟨v, s', sent, processed⟩ := run
  have next : SameNext 1 s Network.idleNet v :=
    ⟨by decide, by rw [processed]; decide, rfl⟩
  have first : NetHistory (virtioNet 0 0 32) Network.idleNet.dev := .constructed ⟨_, rfl⟩
  exact ⟨v, s', sent, (chains_independent 0 0 32).sent 2 1 Network.noPacket s Network.idleNet v
    first (.visited first sent) next⟩

end TtBhLinux.Virtio
