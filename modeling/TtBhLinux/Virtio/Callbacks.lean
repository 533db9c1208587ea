import TtBhLinux.Common.Recorded
import TtBhLinux.Virtio.Accesses
import TtBhLinux.Virtio.ExactlyOnce

/-!
# The calls that a device receives

Beside the rings stands what each chain consisted of when the driver made it available, and which
`process_queue_*` functions `device_loop` has called since.
-/

namespace TtBhLinux.Virtio
open Common System

structure Call where
  callback : Callback
  addr : U64
  len : U64
  deriving DecidableEq

def chainCalls (c : Config) : U64 → List Desc → List Call
  | _, [] => []
  | num_bytes_written, d :: rest =>
      ⟨c.callback d.hasNext num_bytes_written, c.addr d, d.length⟩ ::
        chainCalls c (num_bytes_written + d.length) rest

def Call.completes (call : Call) : Bool := call.callback = .complete

def entryLength (descs : List Desc) : U32 := (totalLength descs).setWidth 32

def Virtqueue.descs (vq : Virtqueue) (chain : List U16) : List Desc :=
  chain.map fun i => vq.desc i.toNat

structure Calls where
  /-- The descriptors of each published chain, as they were when `avail.idx` came to count it. -/
  offered : Nat → List (List Desc)
  calls : Nat → List Call
  lengths : Nat → List U32

def Calls.none : Calls := ⟨fun _ => [], fun _ => [], fun _ => []⟩

def Calls.device (c : Config) (pc : LoopPc) (s : Shared) (r : Calls) : Calls :=
  match pc with
  | .process w l addr more =>
      let call := ⟨c.callback more w.num_bytes_written, addr, l⟩
      { r with calls := Function.update r.calls w.queue_idx (r.calls w.queue_idx ++ [call]) }
  | .storeUsedIdx w used_idx =>
      let len := ((s.queues w.queue_idx).used.ring (slot used_idx)).len
      { r with lengths := Function.update r.lengths w.queue_idx (r.lengths w.queue_idx ++ [len]) }
  | _ => r

def Calls.driver (q : Nat) (move : RingMove) (d : RingDriver) (vq : Virtqueue) (r : Calls) :
    Calls :=
  match move with
  | .storeAvailIdx =>
      let descs := (d.pending.map vq.descs).toList
      { r with offered := Function.update r.offered q (r.offered q ++ descs) }
  | _ => r

def Calls.note {σ ρ : Type*} (c : Config) : RingLabel ρ → Rings σ → Calls → Calls
  | .device _, s, r => r.device c s.loop.pc s.shared
  | .driver q move, s, r => r.driver q move (s.drivers q) (s.shared.queues q)
  | .guest _ _, _, r => r

/-! ## The invariant -/

structure CallView where
  queue : QueueView
  offered : List (List Desc)
  calls : List Call
  lengths : List U32

def Calls.on (r : Calls) (q : Nat) (queue : QueueView) : CallView :=
  ⟨queue, r.offered q, r.calls q, r.lengths q⟩

def Calls.view {σ : Type*} (r : Calls) (s : Rings σ) (q : Nat) : CallView :=
  r.on q (s.view q)

def CallView.upTo (c : Config) (v : CallView) (n : Nat) : List Call :=
  (v.offered.take n).flatMap (chainCalls c 0)

structure CallView.Offered (v : CallView) : Prop where
  length : v.offered.length = v.queue.driver.published.length
  kept : ∀ k ≥ v.queue.driver.collected.length, ∀ chain,
    v.queue.driver.published[k]? = some chain → v.offered[k]? = some (v.queue.vq.descs chain)
  lengths : v.lengths = (v.offered.take v.queue.entered.length).map entryLength
  terminated : ∀ descs ∈ v.offered, Terminated descs

def CallView.Idle (c : Config) (v : CallView) : Prop := v.calls = v.upTo c v.queue.entered.length

def CallView.Begun (c : Config) (v : CallView) : Prop :=
  v.upTo c v.queue.entered.length <+: v.calls ∧
    v.calls <+: v.upTo c (v.queue.entered.length + 1)

def CallView.Standing (c : Config) (v : CallView) (w : Walk) (past rest : List U16) :
    Prop :=
  v.queue.Next (past ++ rest) ∧
  v.calls = v.upTo c v.queue.entered.length ++ chainCalls c 0 (v.queue.vq.descs past) ∧
  w.num_bytes_written = totalLength (v.queue.vq.descs past)

def CallView.desc (v : CallView) (w : Walk) : Desc := v.queue.vq.desc w.desc_idx.toNat

def LoopPc.CallInv (c : Config) (view : Nat → CallView) : LoopPc → Prop
  | .peekLen w | .peekAddr w | .loadLen w =>
      ∃ past rest, (view w.queue_idx).Standing c w past (w.desc_idx :: rest)
  | .loadAddr w l =>
      (∃ past rest, (view w.queue_idx).Standing c w past (w.desc_idx :: rest)) ∧
      l = ((view w.queue_idx).desc w).length
  | .loadFlags w l addr =>
      (∃ past rest, (view w.queue_idx).Standing c w past (w.desc_idx :: rest)) ∧
      l = ((view w.queue_idx).desc w).length ∧ addr = c.addr ((view w.queue_idx).desc w)
  | .process w l addr more =>
      (∃ past rest, (view w.queue_idx).Standing c w past (w.desc_idx :: rest)) ∧
      l = ((view w.queue_idx).desc w).length ∧ addr = c.addr ((view w.queue_idx).desc w) ∧
      more = ((view w.queue_idx).desc w).hasNext
  | .loadNext w => ∃ past j rest,
      (view w.queue_idx).Standing c w (past ++ [w.desc_idx]) (j :: rest)
  | .loadUsedIdx w | .storeId w _ | .storeLen w _ =>
      ∃ past, (view w.queue_idx).Standing c w past []
  | .storeUsedIdx w used_idx => (∃ past, (view w.queue_idx).Standing c w past []) ∧
      ((view w.queue_idx).queue.vq.used.ring (slot used_idx)).len =
        w.num_bytes_written.setWidth 32
  | .fault _ => ∀ q, (view q).Begun c
  | _ => True

/-- The walk is on a chain of the queue, or has ended in a fault. -/
def LoopPc.busy (q : Nat) : LoopPc → Bool
  | .peekLen w | .peekAddr w | .loadLen w | .loadAddr w _ | .loadFlags w _ _ | .process w _ _ _
  | .loadNext w | .loadUsedIdx w | .storeId w _ | .storeLen w _ | .storeUsedIdx w _ =>
      w.queue_idx == q
  | .fault _ => true
  | _ => false

structure CallInv {σ : Type*} (c : Config) (s : Rings σ) (r : Calls) : Prop where
  queues : ∀ q, (r.view s q).Offered
  idle : ∀ q, s.loop.pc.busy q = false → (r.view s q).Idle c
  pc : s.loop.pc.CallInv c (r.view s)

/-! ## Chains -/

section Chains
variable {c : Config}

theorem chainCalls_append (count : U64) (before after : List Desc) :
    chainCalls c count (before ++ after) =
      chainCalls c count before ++ chainCalls c (count + totalLength before) after := by
  induction before generalizing count with
  | nil => simp [chainCalls, totalLength]
  | cons d rest ih =>
      have sum : count + d.length + totalLength rest = count + totalLength (d :: rest) := by
        simp [totalLength, BitVec.add_assoc]
      simp only [List.cons_append, chainCalls, ih, sum]

@[simp] theorem Virtqueue.descs_append (vq : Virtqueue) (before after : List U16) :
    vq.descs (before ++ after) = vq.descs before ++ vq.descs after := List.map_append

@[simp] theorem Virtqueue.descs_cons (vq : Virtqueue) (i : U16) (rest : List U16) :
    vq.descs (i :: rest) = vq.desc i.toNat :: vq.descs rest := rfl

@[simp] theorem Virtqueue.descs_nil (vq : Virtqueue) : vq.descs [] = [] := rfl

theorem Virtqueue.descs_congr {vq vq' : Virtqueue} {chain : List U16}
    (same : ∀ i ∈ chain, vq'.desc i.toNat = vq.desc i.toNat) : vq'.descs chain = vq.descs chain :=
  List.map_congr_left same

theorem Linked.terminated {n : Nat} {vq : Virtqueue} {chain : List U16}
    (linked : Linked n vq.desc chain) : Terminated (vq.descs chain) := by
  induction chain with
  | nil => exact linked.elim
  | cons i rest ih =>
      cases rest with
      | nil => exact linked.2
      | cons j rest => exact ⟨linked.2.1, ih linked.2.2.2⟩

theorem Config.callback_more (count : U64) : c.callback true count ≠ .complete := by
  by_cases header : count < c.queueHeaderSize <;> simp [Config.callback, header]

theorem Terminated.completed {descs : List Desc} (terminated : Terminated descs) (count : U64) :
    (chainCalls c count descs).countP Call.completes = 1 := by
  induction descs generalizing count with
  | nil => exact terminated.elim
  | cons d rest ih =>
      cases rest with
      | nil =>
          have last : d.hasNext = false := terminated
          simp [chainCalls, Call.completes, Config.callback, last]
      | cons e rest =>
          rw [chainCalls, List.countP_cons_of_neg, ih terminated.2]
          simp [Call.completes, terminated.1, Config.callback_more]

theorem countP_once {p : Call → Bool} {chains : List (List Desc)}
    (once : ∀ descs ∈ chains, (chainCalls c 0 descs).countP p = 1) :
    (chains.flatMap (chainCalls c 0)).countP p = chains.length := by
  induction chains with
  | nil => rfl
  | cons descs rest ih =>
      have others := ih fun descs member => once descs (List.mem_cons_of_mem _ member)
      rw [List.flatMap_cons, List.countP_append, once descs List.mem_cons_self, others,
        List.length_cons, Nat.add_comm]

theorem CallView.upTo_succ {v : CallView} {n : Nat} {descs : List Desc}
    (next : v.offered[n]? = some descs) :
    v.upTo c (n + 1) = v.upTo c n ++ chainCalls c 0 descs := by
  simp only [upTo, List.take_add_one, next, Option.toList_some, List.flatMap_append,
    List.flatMap_singleton]

theorem CallView.Offered.next {v : CallView} (offered : v.Offered) {n : QueueNum}
    (inv : QueueInv n.num v.queue) {chain : List U16} (next : v.queue.Next chain) :
    v.offered[v.queue.entered.length]? = some (v.queue.vq.descs chain) :=
  offered.kept _ inv.collected_le chain next

theorem CallView.Idle.begun {v : CallView} (idle : v.Idle c) : v.Begun c := by
  rw [Begun, show v.calls = _ from idle]
  refine ⟨List.prefix_rfl, ?_⟩
  rw [upTo, upTo, List.take_add_one, List.flatMap_append]
  exact List.prefix_append _ _

theorem CallView.Standing.begun {v : CallView} {w : Walk} {past rest : List U16} {n : QueueNum}
    (standing : v.Standing c w past rest) (offered : v.Offered) (inv : QueueInv n.num v.queue) :
    v.Begun c := by
  obtain ⟨next, calls, -⟩ := standing
  rw [Begun, calls, upTo_succ (offered.next inv next), Virtqueue.descs_append, chainCalls_append,
    ← List.append_assoc]
  exact ⟨List.prefix_append _ _, List.prefix_append _ _⟩

end Chains

/-! ## The driver -/

structure CallView.Evolves (v v' : CallView) : Prop where
  queue : Virtio.Evolves v.queue v'.queue
  kept : ∀ chain, v.queue.Next chain → ∀ i ∈ chain,
    v'.queue.vq.desc i.toNat = v.queue.vq.desc i.toNat
  offered : v.offered <+: v'.offered
  behind : v.queue.entered.length ≤ v.offered.length
  calls : v'.calls = v.calls

section Evolves
variable {c : Config} {v v' : CallView} (evolves : v.Evolves v')
include evolves

theorem CallView.Evolves.upTo :
    v'.upTo c v'.queue.entered.length = v.upTo c v.queue.entered.length := by
  obtain ⟨more, eq⟩ := evolves.offered
  rw [CallView.upTo, CallView.upTo, evolves.queue.entered, ← eq,
    List.take_append_of_le_length evolves.behind]

theorem CallView.Evolves.idle (idle : v.Idle c) : v'.Idle c := by
  rw [Idle, evolves.upTo, evolves.calls]
  exact idle

theorem CallView.Evolves.begun (begun : v.Begun c) : v'.Begun c := by
  obtain ⟨finished, partly⟩ := begun
  rw [Begun, evolves.upTo, evolves.calls, evolves.queue.entered]
  refine ⟨finished, partly.trans ?_⟩
  obtain ⟨more, eq⟩ := evolves.offered
  rw [CallView.upTo, CallView.upTo, ← eq, List.take_append, List.flatMap_append]
  exact List.prefix_append _ _

theorem CallView.Evolves.standing {w : Walk} {past rest : List U16}
    (standing : v.Standing c w past rest) : v'.Standing c w past rest := by
  obtain ⟨next, calls, count⟩ := standing
  have same : v'.queue.vq.descs past = v.queue.vq.descs past :=
    Virtqueue.descs_congr fun i member =>
      evolves.kept _ next i (List.mem_append_left _ member)
  rw [Standing, evolves.upTo, evolves.calls, same]
  exact ⟨evolves.queue.next next, calls, count⟩

theorem CallView.Evolves.desc {w : Walk} {past rest : List U16}
    (standing : v.Standing c w past (w.desc_idx :: rest)) : v'.desc w = v.desc w :=
  evolves.kept _ standing.1 _ (List.mem_append_right _ List.mem_cons_self)

end Evolves

theorem LoopPc.CallInv.evolves {c : Config} {view view' : Nat → CallView} {pc : LoopPc}
    (inv : pc.CallInv c view) (evolves : ∀ q, (view q).Evolves (view' q)) : pc.CallInv c view' := by
  cases pc with
  | peekLen w | peekAddr w | loadLen w =>
      obtain ⟨past, rest, standing⟩ := inv
      exact ⟨past, rest, (evolves _).standing standing⟩
  | loadAddr w l | loadFlags w l addr | process w l addr more =>
      obtain ⟨⟨past, rest, standing⟩, loaded⟩ := inv
      simp only [CallInv, (evolves _).desc standing]
      exact ⟨⟨past, rest, (evolves _).standing standing⟩, loaded⟩
  | loadNext w =>
      obtain ⟨past, j, rest, standing⟩ := inv
      exact ⟨past, j, rest, (evolves _).standing standing⟩
  | loadUsedIdx w | storeId w used_idx | storeLen w used_idx =>
      obtain ⟨past, standing⟩ := inv
      exact ⟨past, (evolves _).standing standing⟩
  | storeUsedIdx w used_idx =>
      obtain ⟨⟨past, standing⟩, len⟩ := inv
      simp only [CallInv, (evolves _).queue.used]
      exact ⟨⟨past, (evolves _).standing standing⟩, len⟩
  | fault f => exact fun q => (evolves q).begun (inv q)
  | _ => trivial

theorem outstanding_of_published {d : RingDriver} {k : Nat} {chain : List U16}
    (later : d.collected.length ≤ k) (published : d.published[k]? = some chain) :
    chain ∈ d.outstanding := by
  refine mem_outstanding.mpr (.inl (List.mem_of_getElem? (i := k - d.collected.length) ?_))
  rw [List.getElem?_drop, Nat.add_sub_cancel' later]
  exact published

section Driver
variable {n : QueueNum} {q : Nat} {d d' : RingDriver} {vq vq' : Virtqueue} {entered : List U32}
  {r : Calls}

theorem CallView.Offered.evolves {v v' : CallView} (offered : v.Offered)
    (inv : QueueInv n.num v.queue) (queue : Virtio.Evolves v.queue v'.queue)
    (kept : ∀ chain, v.queue.Next chain → ∀ i ∈ chain,
      v'.queue.vq.desc i.toNat = v.queue.vq.desc i.toNat)
    (more : v.offered <+: v'.offered) (calls : v'.calls = v.calls) : v.Evolves v' where
  queue := queue
  kept := kept
  offered := more
  behind := by
    rw [offered.length]
    exact inv.entered_le
  calls := calls

theorem ringMove_offered {move : RingMove} (inv : QueueInv n.num ⟨d, vq, entered⟩)
    (offered : (r.on q ⟨d, vq, entered⟩).Offered)
    (action : ringMove n.num move d vq = some (d', vq')) :
    ((r.driver q move d vq).on q ⟨d', vq', entered⟩).Offered ∧
    (r.on q ⟨d, vq, entered⟩).Evolves ((r.driver q move d vq).on q ⟨d', vq', entered⟩) := by
  obtain ⟨-, used, published⟩ := ringMove_inv inv action
  have queue : Evolves ⟨d, vq, entered⟩ ⟨d', vq', entered⟩ := ⟨rfl, used, published⟩
  cases move with
  | setDesc i desc =>
      simp only [ringMove, Option.ite_none_right_eq_some, Option.some.injEq] at action
      obtain ⟨free, eq⟩ := action
      obtain ⟨rfl, rfl⟩ := Prod.mk.inj eq
      have same : ∀ chain ∈ d.outstanding, ∀ j ∈ chain,
          Function.update vq.desc i desc j.toNat = vq.desc j.toNat :=
        fun chain member j used => Function.update_of_ne (free chain member j used) _ _
      refine ⟨⟨offered.length, fun k later chain published => ?_, offered.lengths,
          offered.terminated⟩,
        offered.evolves inv queue (fun chain next => ?_) List.prefix_rfl rfl⟩
      · have kept : ({ vq with desc := Function.update vq.desc i desc } : Virtqueue).descs chain =
            vq.descs chain :=
          Virtqueue.descs_congr (same chain (outstanding_of_published later published))
        exact (offered.kept k later chain published).trans (congrArg some kept.symm)
      · exact same chain (outstanding_of_published inv.collected_le next)
  | storeSlot chain =>
      simp only [ringMove, Option.ite_none_right_eq_some, Option.some.injEq] at action
      obtain ⟨-, eq⟩ := action
      obtain ⟨rfl, rfl⟩ := Prod.mk.inj eq
      exact ⟨⟨offered.length, offered.kept, offered.lengths, offered.terminated⟩,
        offered.evolves inv queue (fun _ _ _ _ => rfl) List.prefix_rfl rfl⟩
  | storeAvailIdx =>
      obtain ⟨chain, pending, eq⟩ := Option.map_eq_some_iff.mp action
      obtain ⟨rfl, rfl⟩ := Prod.mk.inj eq
      have record : (r.driver q .storeAvailIdx d vq).on q = fun queue =>
          ⟨queue, r.offered q ++ [vq.descs chain], r.calls q, r.lengths q⟩ := by
        funext queue
        simp [Calls.on, Calls.driver, pending]
      have length : (r.offered q).length = d.published.length := offered.length
      rw [record]
      refine ⟨⟨?_, fun k later chain' published => ?_, ?_, fun descs member => ?_⟩,
        offered.evolves inv queue (fun _ _ _ _ => rfl) (List.prefix_append _ _) rfl⟩
      · simp [length]
      · rcases Nat.lt_or_ge k d.published.length with old | new
        · rw [List.getElem?_append_left old] at published
          rw [List.getElem?_append_left (length ▸ old)]
          exact offered.kept k later chain' published
        · rw [List.getElem?_append_right new] at published
          rw [List.getElem?_append_right (length ▸ new), length]
          obtain ⟨zero, rfl⟩ : k - d.published.length = 0 ∧ chain = chain' := by
            simpa [List.getElem?_singleton] using published
          rw [zero]
          rfl
      · rw [show r.lengths q = _ from offered.lengths]
        exact congrArg _ (List.take_append_of_le_length (length ▸ inv.entered_le)).symm
      · rcases List.mem_append.mp member with old | new
        · exact offered.terminated descs old
        · rw [List.mem_singleton.mp new]
          exact (inv.linked chain (mem_outstanding.mpr (.inr pending))).terminated
  | loadUsedIdx =>
      obtain ⟨rfl, rfl⟩ := Prod.mk.inj (Option.some.inj action)
      exact ⟨⟨offered.length, offered.kept, offered.lengths, offered.terminated⟩,
        offered.evolves inv queue (fun _ _ _ _ => rfl) List.prefix_rfl rfl⟩
  | collect =>
      simp only [ringMove, Option.ite_none_right_eq_some, Option.some.injEq] at action
      obtain ⟨-, eq⟩ := action
      obtain ⟨rfl, rfl⟩ := Prod.mk.inj eq
      refine ⟨⟨offered.length, fun k later => offered.kept k ?_, offered.lengths,
          offered.terminated⟩,
        offered.evolves inv queue (fun _ _ _ _ => rfl) List.prefix_rfl rfl⟩
      exact le_trans (by simp [Calls.on]) later

end Driver

/-! ## The device -/

section Device
variable {σ ρ : Type*} {dev : Device σ ρ} {c : Config} {num : Nat → QueueNum} {s : Rings σ}
  {r : Calls}

theorem CallView.Standing.linked {v : CallView} {w : Walk} {past rest : List U16} {n : QueueNum}
    (standing : v.Standing c w past (w.desc_idx :: rest)) (inv : QueueInv n.num v.queue) :
    Linked n.num v.queue.vq.desc (w.desc_idx :: rest) :=
  (inv.next_linked standing.1).suffix (List.suffix_append _ _) (List.cons_ne_nil _ _)

theorem CallView.Standing.desc {v : CallView} {w : Walk} {past rest : List U16} {n : QueueNum}
    (standing : v.Standing c w past (w.desc_idx :: rest)) (inv : QueueInv n.num v.queue) :
    v.queue.vq.desc (slot w.desc_idx) = v.desc w := by
  have lt : w.desc_idx.toNat < n.num := (standing.linked inv).lt
  rw [slot_eq, Nat.mod_eq_of_lt (lt.trans_le n.le)]
  rfl

theorem CallView.Standing.next {v : CallView} {w : Walk} {past rest : List U16} {j : U16}
    {n : QueueNum} (standing : v.Standing c w (past ++ [w.desc_idx]) (j :: rest))
    (inv : QueueInv n.num v.queue) : (v.queue.vq.desc (slot w.desc_idx)).next = j := by
  have suffix : w.desc_idx :: j :: rest <:+ past ++ [w.desc_idx] ++ j :: rest := by
    rw [List.append_assoc]
    exact List.suffix_append _ _
  have linked := (inv.next_linked standing.1).suffix suffix (List.cons_ne_nil _ _)
  rw [slot_eq, Nat.mod_eq_of_lt (linked.1.trans_le n.le)]
  exact linked.2.2.1

def CallView.call (c : Config) (v : CallView) (w : Walk) : CallView :=
  let d := v.desc w
  { v with calls := v.calls ++ [⟨c.callback d.hasNext w.num_bytes_written, c.addr d, d.length⟩] }

theorem CallView.Standing.called {v : CallView} {w : Walk} {past rest : List U16}
    (standing : v.Standing c w past (w.desc_idx :: rest)) :
    (v.call c w).Standing c { w with num_bytes_written := w.num_bytes_written + (v.desc w).length }
      (past ++ [w.desc_idx]) rest := by
  obtain ⟨next, calls, count⟩ := standing
  refine ⟨?_, ?_, ?_⟩
  · rw [List.append_assoc]
    exact next
  · simp only [call, calls, Virtqueue.descs_append, chainCalls_append, List.append_assoc]
    simp [chainCalls, count, CallView.desc, upTo]
  · rw [Virtqueue.descs_append, Virtqueue.descs_cons, Virtqueue.descs_nil, totalLength_append]
    exact congrArg (· + _) count

theorem CallInv.quiet (inv : CallInv c s r) {pc : LoopPc} {vars : Locals σ} {shared : Shared}
    (queues : shared.queues = s.shared.queues)
    (busy : ∀ q, pc.busy q = false → s.loop.pc.busy q = false)
    (pc_inv : pc.CallInv c (r.view s)) :
    CallInv c { s with loop := ⟨pc, vars⟩, shared := shared } r := by
  have view : r.view { s with loop := ⟨pc, vars⟩, shared := shared } = r.view s := by
    funext q
    simp [Calls.view, Rings.view, queues]
  exact ⟨fun q => view ▸ inv.queues q, fun q idle => view ▸ inv.idle q (busy q idle),
    view ▸ pc_inv⟩

theorem CallInv.update (inv : CallInv c s r) {s' : Rings σ} {r' : Calls} {q : Nat}
    (other : ∀ k ≠ q, r'.view s' k = r.view s k) (others : ∀ k ≠ q, s.loop.pc.busy k = false)
    (offered : (r'.view s' q).Offered) (idle : s'.loop.pc.busy q = false → (r'.view s' q).Idle c)
    (pc_inv : s'.loop.pc.CallInv c (r'.view s')) : CallInv c s' r' := by
  refine ⟨fun k => ?_, fun k free => ?_, pc_inv⟩
  · by_cases same : k = q
    · exact same ▸ offered
    · rw [other k same]
      exact inv.queues k
  · by_cases same : k = q
    · subst same
      exact idle free
    · rw [other k same]
      exact inv.idle k (others k same)

theorem view_used (s : Rings σ) (r : Calls) (loop : Loop σ) (q : Nat) (f : UsedRing → UsedRing) :
    r.view { s with loop := loop, shared := s.shared.updateUsed q f } q =
      r.on q ⟨s.drivers q, { s.shared.queues q with used := f (s.shared.queues q).used },
        s.entered q⟩ := by
  simp [Calls.view, Rings.view, Shared.updateUsed]

theorem view_used_other (s : Rings σ) (r : Calls) (loop : Loop σ) {q k : Nat}
    (f : UsedRing → UsedRing) (ne : k ≠ q) :
    r.view { s with loop := loop, shared := s.shared.updateUsed q f } k = r.view s k := by
  simp [Calls.view, Rings.view, Shared.updateUsed, ne]

theorem CallInv.storeEntry (inv : CallInv c s r) {w : Walk} {past : List U16} {pc : LoopPc}
    {f : UsedRing → UsedRing} (standing : (r.view s w.queue_idx).Standing c w past [])
    (others : ∀ k ≠ w.queue_idx, s.loop.pc.busy k = false) (busy : pc.busy w.queue_idx = true)
    (pc_inv : ∀ view : Nat → CallView, (view w.queue_idx).Standing c w past [] →
      (view w.queue_idx).queue.vq.used = f (s.shared.queues w.queue_idx).used →
      pc.CallInv c view) :
    CallInv c { s with
      loop := { s.loop with pc }, shared := s.shared.updateUsed w.queue_idx f } r := by
  have own := view_used s r { s.loop with pc } w.queue_idx f
  have offered := inv.queues w.queue_idx
  refine inv.update (fun k => view_used_other s r _ f) others ?_ (fun idle => ?_) (pc_inv _ ?_ ?_)
  · rw [own]
    exact ⟨offered.length, offered.kept, offered.lengths, offered.terminated⟩
  · rw [busy] at idle
    cases idle
  · rw [own]
    exact standing
  · rw [own]
    rfl

theorem CallInv.called (inv : CallInv c s r) {w : Walk} {pc : LoopPc} {vars : Locals σ}
    {shared : Shared} {call : Call} (queues : shared.queues = s.shared.queues)
    (others : ∀ k ≠ w.queue_idx, s.loop.pc.busy k = false) (busy : pc.busy w.queue_idx = true)
    (call_eq : r.calls w.queue_idx ++ [call] = ((r.view s w.queue_idx).call c w).calls)
    (pc_inv : ∀ view : Nat → CallView, view w.queue_idx = (r.view s w.queue_idx).call c w →
      (∀ k ≠ w.queue_idx, view k = r.view s k) → pc.CallInv c view) :
    CallInv c { s with loop := ⟨pc, vars⟩, shared := shared }
      { r with calls := Function.update r.calls w.queue_idx (r.calls w.queue_idx ++ [call]) } := by
  have own : Calls.view { r with
      calls := Function.update r.calls w.queue_idx (r.calls w.queue_idx ++ [call]) }
      { s with loop := ⟨pc, vars⟩, shared := shared } w.queue_idx =
      (r.view s w.queue_idx).call c w := by
    simp only [Calls.view, Calls.on, Rings.view, queues, Function.update_self, call_eq]
    rfl
  have other : ∀ k ≠ w.queue_idx, Calls.view { r with
      calls := Function.update r.calls w.queue_idx (r.calls w.queue_idx ++ [call]) }
      { s with loop := ⟨pc, vars⟩, shared := shared } k = r.view s k := by
    intro k ne
    simp [Calls.view, Calls.on, Rings.view, queues, ne]
  have offered := inv.queues w.queue_idx
  refine inv.update other others ?_ (fun idle => ?_) (pc_inv _ own other)
  · rw [own]
    exact ⟨offered.length, offered.kept, offered.lengths, offered.terminated⟩
  · rw [busy] at idle
    cases idle

theorem CallInv.entered (inv : CallInv c s r) (rings : RingInv num s) {w : Walk} {past : List U16}
    {used_idx : U16} (standing : (r.view s w.queue_idx).Standing c w past [])
    (len : ((s.shared.queues w.queue_idx).used.ring (slot used_idx)).len =
      w.num_bytes_written.setWidth 32)
    (others : ∀ k ≠ w.queue_idx, s.loop.pc.busy k = false) :
    CallInv c { s with
      loop := { s.loop with pc := .countProcessed w.queue_idx }
      shared := s.shared.storeUsedIdx w used_idx
      entered := enter (.storeUsedIdx w used_idx) s.shared s.entered }
      (r.device c (.storeUsedIdx w used_idx) s.shared) := by
  obtain ⟨next, calls, count⟩ := standing
  have offered := inv.queues w.queue_idx
  have descs := offered.next (rings.queues w.queue_idx) next
  rw [List.append_nil] at descs
  have own : (r.device c (.storeUsedIdx w used_idx) s.shared).view { s with
      loop := { s.loop with pc := .countProcessed w.queue_idx }
      shared := s.shared.storeUsedIdx w used_idx
      entered := enter (.storeUsedIdx w used_idx) s.shared s.entered } w.queue_idx =
      ⟨⟨s.drivers w.queue_idx, { s.shared.queues w.queue_idx with
          used := { (s.shared.queues w.queue_idx).used with idx := used_idx + 1 } },
        s.entered w.queue_idx ++ [((s.shared.queues w.queue_idx).used.ring (slot used_idx)).id]⟩,
        r.offered w.queue_idx, r.calls w.queue_idx,
        r.lengths w.queue_idx ++ [w.num_bytes_written.setWidth 32]⟩ := by
    simp [Calls.view, Calls.on, Rings.view, Calls.device, Shared.storeUsedIdx, Shared.updateUsed,
      enter, len]
  refine inv.update (fun k ne => ?_) others ?_ (fun _ => ?_) trivial
  · simp [Calls.view, Calls.on, Rings.view, Calls.device, Shared.storeUsedIdx, Shared.updateUsed,
      enter, ne]
  · rw [own]
    refine ⟨offered.length, offered.kept, ?_, offered.terminated⟩
    have lengths : r.lengths w.queue_idx = _ := offered.lengths
    rw [List.length_append, List.length_singleton, List.take_add_one, List.map_append]
    exact congrArg₂ (· ++ ·) lengths (by rw [count]; exact descs ▸ rfl)
  · rw [own, CallView.Idle, List.length_append, List.length_singleton]
    exact calls.trans (CallView.upTo_succ descs).symm

theorem nextQueue_calls (q : Nat) (view : Nat → CallView) : (c.nextQueue q).CallInv c view := by
  unfold Config.nextQueue
  split <;> trivial

theorem busy_other {w : Walk} (k : Nat) (ne : k ≠ w.queue_idx) : (w.queue_idx == k) = false :=
  beq_eq_false_iff_ne.mpr ne.symm

theorem device_step_calls {a : Answer ρ} {loop : Loop σ} {shared : Shared} (rings : RingInv num s)
    (inv : CallInv c s r) (inside : TakesInside num s (.device a))
    (action : loopStep dev c a s.loop s.shared = some (loop, shared)) :
    CallInv c { s with loop, shared, entered := enter s.loop.pc s.shared s.entered }
      (r.device c s.loop.pc s.shared) := by
  have own := inv.pc
  have ring_pc := rings.pc
  unfold loopStep at action
  unfold enter Calls.device
  cases at_pc : s.loop.pc with
  | returned | fault f => simp [at_pc] at action
  | testExit | testMagic | ackInterrupt | loadAvailIdx q | queueHasData q | countProcessed q
  | loadInterruptStatus q | storeInterruptStatus q val | raise q | lower q =>
      simp only [at_pc, Option.some.injEq] at action
      obtain ⟨rfl, rfl⟩ := Prod.mk.inj action
      refine inv.quiet rfl (fun q _ => by simp [at_pc, LoopPc.busy]) ?_
      repeat' split
      all_goals first | trivial | exact nextQueue_calls _ _
  | loadHead q =>
      rw [at_pc] at ring_pc
      simp only [at_pc, Option.some.injEq] at action
      obtain ⟨rfl, rfl⟩ := Prod.mk.inj action
      obtain ⟨chain, next⟩ := ring_pc
      obtain ⟨chain', ⟨next', -, first⟩, -⟩ := rings.takes_next next at_pc (inside q (at_pc ▸ rfl))
      have linked := (rings.queues q).next_linked next'
      have idle := inv.idle q (by rw [at_pc]; rfl)
      refine inv.quiet rfl (fun k _ => by simp [at_pc, LoopPc.busy]) ⟨[], chain'.tail, ?_, ?_, rfl⟩
      · rw [List.nil_append, show (s.shared.queues q).avail.ring _ = _ from first,
          ← linked.eq_cons]
        exact next'
      · simpa [chainCalls] using (show _ = _ from idle)
  | peekLen w | peekAddr w =>
      rw [at_pc] at own
      simp only [at_pc, Option.some.injEq] at action
      obtain ⟨rfl, rfl⟩ := Prod.mk.inj action
      exact inv.quiet rfl (fun _ idle => at_pc ▸ idle) own
  | loadLen w =>
      rw [at_pc] at own
      simp only [at_pc, Option.some.injEq] at action
      obtain ⟨rfl, rfl⟩ := Prod.mk.inj action
      obtain ⟨past, rest, standing⟩ := own
      refine inv.quiet rfl (fun _ idle => at_pc ▸ idle)
        ⟨⟨past, rest, standing⟩, congrArg Desc.length (standing.desc (rings.queues _))⟩
  | loadAddr w l =>
      rw [at_pc] at own
      simp only [at_pc, Option.some.injEq] at action
      obtain ⟨rfl, rfl⟩ := Prod.mk.inj action
      obtain ⟨⟨past, rest, standing⟩, len⟩ := own
      refine inv.quiet rfl (fun _ idle => at_pc ▸ idle)
        ⟨⟨past, rest, standing⟩, len, congrArg c.addr (standing.desc (rings.queues _))⟩
  | loadFlags w l addr =>
      rw [at_pc] at own
      simp only [at_pc, Option.some.injEq] at action
      obtain ⟨rfl, rfl⟩ := Prod.mk.inj action
      obtain ⟨⟨past, rest, standing⟩, len, from_addr⟩ := own
      refine inv.quiet rfl (fun _ idle => at_pc ▸ idle)
        ⟨⟨past, rest, standing⟩, len, from_addr,
          congrArg Desc.hasNext (standing.desc (rings.queues _))⟩
  | process w l addr more =>
      rw [at_pc] at own
      obtain ⟨⟨past, rest, standing⟩, rfl, rfl, rfl⟩ := own
      have others : ∀ k ≠ w.queue_idx, s.loop.pc.busy k = false := fun k ne => by
        rw [at_pc]
        exact busy_other k ne
      have called := standing.called
      simp only [at_pc] at action
      split at action
      · obtain ⟨rfl, rfl⟩ := Prod.mk.inj (Option.some.inj action)
        refine inv.called rfl others rfl rfl fun view same other k => ?_
        by_cases ne : k = w.queue_idx
        · have offered := inv.queues w.queue_idx
          rw [ne, same]
          exact called.begun
            ⟨offered.length, offered.kept, offered.lengths, offered.terminated⟩ (rings.queues _)
        · rw [other k ne]
          exact (inv.idle k (others k ne)).begun
      · obtain ⟨rfl, rfl⟩ := Prod.mk.inj (Option.some.inj action)
        have linked := standing.linked (rings.queues _)
        refine inv.called rfl others ?_ rfl fun view same other => ?_
        · split <;> simp [LoopPc.busy]
        · rw [← same] at called
          have more : ((r.view s w.queue_idx).desc w).hasNext = !rest.isEmpty := linked.hasNext
          rw [more]
          cases rest with
          | nil => exact ⟨_, called⟩
          | cons j rest => exact ⟨past, j, rest, called⟩
  | loadNext w =>
      rw [at_pc] at own
      simp only [at_pc, Option.some.injEq] at action
      obtain ⟨rfl, rfl⟩ := Prod.mk.inj action
      obtain ⟨past, j, rest, standing⟩ := own
      have next : (s.shared.desc w).next = j := standing.next (rings.queues _)
      refine inv.quiet rfl (fun _ idle => at_pc ▸ idle) ⟨past ++ [w.desc_idx], rest, ?_⟩
      rw [next]
      exact standing
  | loadUsedIdx w =>
      rw [at_pc] at own
      simp only [at_pc, Option.some.injEq] at action
      obtain ⟨rfl, rfl⟩ := Prod.mk.inj action
      exact inv.quiet rfl (fun _ idle => at_pc ▸ idle) own
  | storeId w used_idx =>
      rw [at_pc] at own
      simp only [at_pc, Option.some.injEq] at action
      obtain ⟨rfl, rfl⟩ := Prod.mk.inj action
      obtain ⟨past, standing⟩ := own
      exact inv.storeEntry standing (fun k ne => by rw [at_pc]; exact busy_other k ne)
        (by simp [LoopPc.busy]) fun view standing _ => ⟨past, standing⟩
  | storeLen w used_idx =>
      rw [at_pc] at own
      simp only [at_pc, Option.some.injEq] at action
      obtain ⟨rfl, rfl⟩ := Prod.mk.inj action
      obtain ⟨past, standing⟩ := own
      refine inv.storeEntry standing (fun k ne => by rw [at_pc]; exact busy_other k ne)
        (by simp [LoopPc.busy]) fun view standing used => ⟨⟨past, standing⟩, ?_⟩
      rw [used]
      simp
  | storeUsedIdx w used_idx =>
      rw [at_pc] at own
      simp only [at_pc, Option.some.injEq] at action
      obtain ⟨rfl, rfl⟩ := Prod.mk.inj action
      obtain ⟨⟨past, standing⟩, len⟩ := own
      exact inv.entered rings standing len fun k ne => by rw [at_pc]; exact busy_other k ne

theorem driver_step_calls {q : Nat} {move : RingMove} {d : RingDriver} {vq : Virtqueue}
    (rings : RingInv num s) (inv : CallInv c s r)
    (action : ringMove (num q).num move (s.drivers q) (s.shared.queues q) = some (d, vq)) :
    CallInv c { s with
      shared := { s.shared with queues := Function.update s.shared.queues q vq }
      drivers := Function.update s.drivers q d }
      (r.driver q move (s.drivers q) (s.shared.queues q)) := by
  obtain ⟨offered, evolves⟩ := ringMove_offered (rings.queues q) (inv.queues q) action
  have own : (r.driver q move (s.drivers q) (s.shared.queues q)).view { s with
      shared := { s.shared with queues := Function.update s.shared.queues q vq }
      drivers := Function.update s.drivers q d } q =
      (r.driver q move (s.drivers q) (s.shared.queues q)).on q ⟨d, vq, s.entered q⟩ := by
    rw [Calls.view, view_update, if_pos rfl]
  have other : ∀ k ≠ q, (r.driver q move (s.drivers q) (s.shared.queues q)).view { s with
      shared := { s.shared with queues := Function.update s.shared.queues q vq }
      drivers := Function.update s.drivers q d } k = r.view s k := by
    intro k ne
    rw [Calls.view, view_update, if_neg ne]
    cases move <;> simp [Calls.driver, Calls.view, Calls.on, ne]
  have all : ∀ k, (r.view s k).Evolves ((r.driver q move (s.drivers q) (s.shared.queues q)).view
      { s with
        shared := { s.shared with queues := Function.update s.shared.queues q vq }
        drivers := Function.update s.drivers q d } k) := by
    intro k
    by_cases same : k = q
    · rw [same, own]
      exact evolves
    · rw [other k same]
      exact (inv.queues k).evolves (rings.queues k) .rfl (fun _ _ _ _ => rfl) List.prefix_rfl rfl
  refine ⟨fun k => ?_, fun k free => (all k).idle (inv.idle k free), inv.pc.evolves all⟩
  by_cases same : k = q
  · rw [same, own]
    exact offered
  · rw [other k same]
    exact inv.queues k

theorem ring_step {s' : Rings σ} {label : RingLabel ρ} (rings : RingInv num s)
    (inside : TakesInside num s label)
    (action : (Virtio.rings dev c num).step label s = some s') : RingInv num s' := by
  cases label with
  | device a =>
      obtain ⟨⟨loop, shared⟩, moved, rfl⟩ := Option.map_eq_some_iff.mp action
      exact device_step_inv rings inside moved
  | driver k move =>
      obtain ⟨⟨d, vq⟩, moved, rfl⟩ := Option.map_eq_some_iff.mp action
      exact driver_step_inv rings moved
  | guest regs mem =>
      cases Option.some.inj action
      exact ⟨rings.queues, rings.processed, rings.counting, rings.pc⟩

theorem rings_step_calls {s' : Rings σ} {label : RingLabel ρ} (rings : RingInv num s)
    (inv : CallInv c s r) (inside : TakesInside num s label)
    (action : (Virtio.rings dev c num).step label s = some s') :
    CallInv c s' (Calls.note c label s r) := by
  cases label with
  | device a =>
      obtain ⟨⟨loop, shared⟩, moved, rfl⟩ := Option.map_eq_some_iff.mp action
      exact device_step_calls rings inv inside moved
  | driver q move =>
      obtain ⟨⟨d, vq⟩, moved, rfl⟩ := Option.map_eq_some_iff.mp action
      exact driver_step_calls rings inv moved
  | guest regs mem =>
      cases Option.some.inj action
      exact ⟨inv.queues, inv.idle, inv.pc⟩

theorem takes_max (s : Rings σ) (label : RingLabel ρ) : TakesInside (fun _ => .max) s label := by
  cases label with
  | device a => exact fun q _ => slot_lt _
  | _ => trivial

theorem rings_init_calls {s : Rings σ} (initial : (rings dev c num).init s) :
    CallInv c s .none := by
  obtain ⟨at_pc, -, -, drivers, entered⟩ := initial
  refine ⟨fun q => ?_, fun q _ => ?_, by rw [at_pc]; trivial⟩
  · constructor <;>
      simp [Calls.view, Calls.on, Calls.none, Rings.view, drivers, RingDriver.fresh]
  · simp [CallView.Idle, CallView.upTo, Calls.view, Calls.on, Calls.none]

theorem rings_calls (reachable : (rings dev c num).ReachableWith .none (.note c) (TakesInside num)
    (s, r)) : CallInv c s r :=
  ReachableWith.invariant (CallInv c) reachable (fun _ => rings_init_calls)
    fun _ _ _ _ reachable inv inside action => rings_step_calls (rings_inv reachable) inv inside action

theorem LoopPc.CallInv.begun {pc : LoopPc} {view : Nat → CallView} {q : Nat}
    (inv : pc.CallInv c view) (busy : pc.busy q = true) (offered : ∀ q, (view q).Offered)
    (queues : ∀ q, QueueInv (num q).num (view q).queue) : (view q).Begun c := by
  cases pc with
  | peekLen w | peekAddr w | loadLen w =>
      obtain ⟨past, rest, standing⟩ := inv
      exact eq_of_beq busy ▸ standing.begun (offered _) (queues _)
  | loadAddr w l | loadFlags w l addr | process w l addr more =>
      obtain ⟨⟨past, rest, standing⟩, -⟩ := inv
      exact eq_of_beq busy ▸ standing.begun (offered _) (queues _)
  | loadNext w =>
      obtain ⟨past, j, rest, standing⟩ := inv
      exact eq_of_beq busy ▸ standing.begun (offered _) (queues _)
  | loadUsedIdx w | storeId w used_idx | storeLen w used_idx =>
      obtain ⟨past, standing⟩ := inv
      exact eq_of_beq busy ▸ standing.begun (offered _) (queues _)
  | storeUsedIdx w used_idx =>
      obtain ⟨⟨past, standing⟩, -⟩ := inv
      exact eq_of_beq busy ▸ standing.begun (offered _) (queues _)
  | fault f => exact inv q
  | _ => cases busy

structure CallsInOrder (c : Config) (s : Rings σ) (r : Calls) (q : Nat) : Prop where
  offered : (r.offered q).length = (s.drivers q).published.length
  finished : (r.view s q).upTo c (s.entered q).length <+: r.calls q
  begun : r.calls q <+: (r.view s q).upTo c ((s.entered q).length + 1)
  idle : s.loop.pc.busy q = false → r.calls q = (r.view s q).upTo c (s.entered q).length
  completed : s.loop.pc.busy q = false →
    (r.calls q).countP Call.completes = (s.entered q).length
  lengths : r.lengths q = ((r.offered q).take (s.entered q).length).map entryLength

theorem CallInv.begun (inv : CallInv c s r) (rings : RingInv num s) (q : Nat) :
    (r.view s q).Begun c := by
  cases busy : s.loop.pc.busy q with
  | false => exact (inv.idle q busy).begun
  | true => exact inv.pc.begun busy inv.queues rings.queues

theorem CallInv.inOrder (inv : CallInv c s r) (rings : RingInv num s) (q : Nat) :
    CallsInOrder c s r q := by
  have offered := inv.queues q
  have begun := inv.begun rings q
  refine ⟨offered.length, begun.1, begun.2, inv.idle q, fun idle => ?_, offered.lengths⟩
  have calls : r.calls q = _ := inv.idle q idle
  have behind : (s.entered q).length ≤ (r.offered q).length :=
    (rings.queues q).entered_le.trans_eq offered.length.symm
  rw [calls, CallView.upTo, countP_once fun descs member =>
    (offered.terminated descs (List.mem_of_mem_take member)).completed 0]
  exact List.length_take_of_le behind

end Device

abbrev calling {σ ρ : Type*} (dev : Device σ ρ) (c : Config) :
    System (Rings σ × Calls) (RingLabel ρ) :=
  (rings dev c fun _ => .max).recorded Calls.none (Calls.note c)

theorem calls_in_order {σ ρ : Type*} (dev : Device σ ρ) (c : Config) (s : Rings σ) (r : Calls)
    (reachable : (calling dev c).Reachable (s, r)) (q : Nat) : CallsInOrder c s r q := by
  have always : (rings dev c fun _ => .max).ReachableWith Calls.none (Calls.note c)
      (TakesInside fun _ => .max) (s, r) :=
    reachable.mono fun s label _ => takes_max s.1 label
  exact (rings_calls always).inOrder (rings_inv always.state) q

def publishPair : List (RingLabel Unit) :=
  [.driver 0 (.setDesc 3 ⟨0x2000, 16, 1, 7⟩), .driver 0 (.storeSlot [3, 7]),
    .driver 0 .storeAvailIdx]

theorem calls_in_order_pair :
    ∃ s r, (calling (Disk.virtioBlkDevice 0) (virtioBlk 0 0 33)).run
        (publishPair ++ deviceSteps 22) (ringStart, Calls.none) = some (s, r) ∧
      (r.calls 0).map Call.callback = [.start, .complete] ∧ r.lengths 0 = [17] ∧
      CallsInOrder (virtioBlk 0 0 33) s r 0 := by
  have run : ∃ s r, (calling (Disk.virtioBlkDevice 0) (virtioBlk 0 0 33)).run
      (publishPair ++ deviceSteps 22) (ringStart, Calls.none) = some (s, r) ∧
      (r.calls 0).map Call.callback = [.start, .complete] ∧ r.lengths 0 = [17] :=
    ⟨_, _, rfl, rfl, rfl⟩
  obtain ⟨s, r, action, calls, lengths⟩ := run
  have initial : (calling (Disk.virtioBlkDevice 0) (virtioBlk 0 0 33)).Reachable
      (ringStart, Calls.none) := .start ⟨ringStart_initial _, rfl⟩
  exact ⟨s, r, action, calls, lengths, calls_in_order _ _ s r (initial.run _ action) 0⟩

end TtBhLinux.Virtio
