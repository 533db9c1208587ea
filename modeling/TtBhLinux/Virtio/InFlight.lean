import TtBhLinux.Virtio.Callbacks

/-!
# What a driver has handed over

A driver leaves the buffers of a chain alone from the time it makes the chain available until it has
collected it. So the device finds there what the driver has put there.
-/

namespace TtBhLinux.Virtio
open Common System

section
variable {σ ρ α : Type*}

/-- The chains that the driver may not touch. -/
def Rings.handedOver (s : Rings σ) (q : Nat) : List (List Desc) :=
  (s.drivers q).outstanding.map (s.shared.queues q).descs

def SameBuffers (c : Config) (descs : List Desc) (mem mem' : U64 → U8) : Prop :=
  ∀ d ∈ descs, ∀ x, InRegion (c.addr d) d.len.toNat x → mem' x = mem x

def ChainsApart (c : Config) (before after : List Desc) : Prop :=
  ∀ d ∈ before, ∀ e ∈ after, Apart (c.addr d) d.len.toNat (c.addr e) e.len.toNat

/-- What the device takes from the buffers of a chain, in one of the calls for it. -/
structure Payload (c : Config) (α : Type*) where
  queue : Nat
  good : (U64 → U8) → List Desc → Prop
  read : (U64 → U8) → List Desc → α
  takes : Call → Bool
  once : ∀ {mem descs}, good mem descs → Terminated descs →
    (chainCalls c 0 descs).countP takes = 1
  reads : ∀ {mem mem' descs}, good mem descs → SameBuffers c descs mem mem' →
    read mem' descs = read mem descs

structure Handed (α : Type*) where
  calls : Calls
  /-- The payload of each published chain, as it was when `avail.idx` came to count it. -/
  payloads : List α

def Handed.none : Handed α := ⟨.none, []⟩

variable {c : Config} (p : Payload c α)

def Payload.published : RingLabel ρ → Rings σ → List α
  | .driver q .storeAvailIdx, s =>
      if q = p.queue then
        ((s.drivers q).pending.map fun chain =>
          p.read s.shared.mem ((s.shared.queues q).descs chain)).toList
      else []
  | _, _ => []

def Payload.note (label : RingLabel ρ) (s : Rings σ) (h : Handed α) : Handed α where
  calls := h.calls.note c label s
  payloads := h.payloads ++ p.published label s

def Handed.taken (h : Handed α) : Nat := (h.calls.calls p.queue).countP p.takes

structure Payload.Honoured (s : Rings σ) (label : RingLabel ρ) : Prop where
  good : ∀ descs ∈ s.handedOver p.queue, p.good s.shared.mem descs
  kept : ∀ regs mem, label = .guest regs mem → ∀ descs ∈ s.handedOver p.queue,
    SameBuffers c descs s.shared.mem mem

structure HandedInv (s : Rings σ) (h : Handed α) : Prop where
  calls : CallInv c s h.calls
  once : ∀ descs ∈ h.calls.offered p.queue, (chainCalls c 0 descs).countP p.takes = 1
  length : h.payloads.length = (h.calls.offered p.queue).length
  kept : ∀ k ≥ h.taken p, ∀ descs, (h.calls.offered p.queue)[k]? = some descs →
    h.payloads[k]? = some (p.read s.shared.mem descs)

end

theorem Calls.device_offered {c : Config} {pc : LoopPc} {s : Shared} (r : Calls) :
    (r.device c pc s).offered = r.offered := by
  cases pc <;> rfl

theorem Calls.device_calls {c : Config} {pc : LoopPc} {s : Shared} (r : Calls) (q : Nat) :
    r.calls q <+: (r.device c pc s).calls q := by
  cases pc with
  | process w l addr more =>
      by_cases own : q = w.queue_idx
      · subst own
        simp [device]
      · simp [device, own]
  | _ => exact List.prefix_rfl

theorem LoopPc.quiet_or_process (pc : LoopPc) :
    pc.callsBack = false ∨ ∃ w l addr more, pc = .process w l addr more := by
  cases pc with
  | process w l addr more => exact .inr ⟨w, l, addr, more, rfl⟩
  | _ => exact .inl rfl

theorem Calls.device_quiet {c : Config} {pc : LoopPc} {s : Shared} (r : Calls)
    (quiet : pc.callsBack = false) : (r.device c pc s).calls = r.calls := by
  cases pc with
  | process w l addr more => cases quiet
  | _ => rfl

theorem Calls.device_countP {c : Config} {w : Walk} {l addr : U64} {more : Bool} {s : Shared}
    (r : Calls) (q : Nat) (p : Call → Bool) :
    ((r.device c (.process w l addr more) s).calls q).countP p = (r.calls q).countP p +
      if w.queue_idx = q ∧ p ⟨c.callback more w.num_bytes_written, addr, l⟩ then 1 else 0 := by
  by_cases own : w.queue_idx = q
  · subst own
    simp [device, List.countP_singleton]
  · simp [device, own, Ne.symm own]

/-! ## Chains that are handed over -/

section
variable {σ ρ α : Type*} {c : Config} {num : Nat → QueueNum} {s : Rings σ} {r : Calls} {q : Nat}

theorem Linked.chain {n : QueueNum} {vq : Virtqueue} {i : U16} {rest : List U16}
    (linked : Linked n.num vq.desc (i :: rest)) : Chain vq.desc i (vq.descs (i :: rest)) := by
  induction rest generalizing i with
  | nil =>
      have here : slot i = i.toNat := Nat.mod_eq_of_lt (linked.lt.trans_le n.le)
      rw [Virtqueue.descs_cons, ← here]
      exact .last (here ▸ linked.2)
  | cons j rest ih =>
      obtain ⟨lt, more, next, others⟩ := linked
      have here : slot i = i.toNat := Nat.mod_eq_of_lt (lt.trans_le n.le)
      rw [Virtqueue.descs_cons, ← here]
      exact .next (here ▸ more) (by rw [here, next]; exact ih others)

theorem RingInv.handedOver_chain (rings : RingInv num s) {descs : List Desc}
    (held : descs ∈ s.handedOver q) : ∃ i, Chain (s.shared.queues q).desc i descs := by
  obtain ⟨chain, outstanding, rfl⟩ := List.mem_map.mp held
  have linked := (rings.queues q).linked chain outstanding
  cases chain with
  | nil => exact linked.elim
  | cons i rest => exact ⟨i, linked.chain⟩

theorem RingInv.handedOver_terminated (rings : RingInv num s) {descs : List Desc}
    (held : descs ∈ s.handedOver q) : Terminated descs := by
  obtain ⟨_, chain⟩ := rings.handedOver_chain held
  exact chain.terminated

theorem CallInv.handedOver_getElem (inv : CallInv c s r) {k : Nat} {descs : List Desc}
    (later : (s.drivers q).collected.length ≤ k) (offered : (r.offered q)[k]? = some descs) :
    (s.handedOver q)[k - (s.drivers q).collected.length]? = some descs := by
  have queue := inv.queues q
  have lt : k < (s.drivers q).published.length := by
    have below := (List.getElem?_eq_some_iff.mp offered).1
    exact below.trans_eq queue.length
  have published := List.getElem?_eq_getElem lt
  have same := (queue.kept k later _ published).symm.trans offered
  have place : ((s.drivers q).published.drop (s.drivers q).collected.length)[
      k - (s.drivers q).collected.length]? = some (s.drivers q).published[k] := by
    rw [List.getElem?_drop, Nat.add_sub_cancel' later]
    exact published
  rw [Rings.handedOver, RingDriver.outstanding, List.getElem?_map,
    List.getElem?_append_left (List.getElem?_eq_some_iff.mp place).1, place]
  exact same

theorem CallInv.handedOver (inv : CallInv c s r) (rings : RingInv num s) {k : Nat}
    {descs : List Desc} (later : (s.entered q).length ≤ k)
    (offered : (r.offered q)[k]? = some descs) : descs ∈ s.handedOver q :=
  List.mem_of_getElem? (inv.handedOver_getElem ((rings.queues q).collected_le.trans later) offered)

theorem CallView.Offered.upTo_completed {v : CallView} (offered : v.Offered) (n : Nat) :
    (v.upTo c n).countP Call.completes = min n v.offered.length := by
  rw [← List.length_take]
  exact countP_once fun descs member =>
    (offered.terminated descs (List.mem_of_mem_take member)).completed 0

theorem CallInv.completed_between (inv : CallInv c s r) (rings : RingInv num s) :
    (s.entered q).length ≤ (r.calls q).countP Call.completes ∧
      (r.calls q).countP Call.completes ≤ (s.entered q).length + 1 ∧
      (r.calls q).countP Call.completes ≤ (r.offered q).length := by
  obtain ⟨finished, begun⟩ := inv.begun rings q
  have behind : (s.entered q).length ≤ (r.offered q).length :=
    (rings.queues q).entered_le.trans_eq (inv.queues q).length.symm
  have lower := ((inv.queues q).upTo_completed _).symm.trans_le finished.sublist.countP_le
  have upper := begun.sublist.countP_le.trans_eq ((inv.queues q).upTo_completed _)
  exact ⟨(le_min le_rfl behind).trans lower, upper.trans (Nat.min_le_left _ _),
    upper.trans (Nat.min_le_right _ _)⟩

theorem HandedInv.upTo {p : Payload c α} {h : Handed α} (inv : HandedInv p s h) (n : Nat) :
    ((h.calls.view s p.queue).upTo c n).countP p.takes =
      min n (h.calls.offered p.queue).length := by
  rw [← List.length_take]
  exact countP_once fun descs member => inv.once descs (List.mem_of_mem_take member)

theorem HandedInv.taken_between {p : Payload c α} {h : Handed α} (inv : HandedInv p s h)
    (rings : RingInv num s) : (s.entered p.queue).length ≤ h.taken p ∧
      h.taken p ≤ (s.entered p.queue).length + 1 ∧ h.taken p ≤ h.payloads.length := by
  obtain ⟨finished, begun⟩ := inv.calls.begun rings p.queue
  have offered := (inv.calls.queues p.queue).length
  have behind : (s.entered p.queue).length ≤ (h.calls.offered p.queue).length :=
    (rings.queues p.queue).entered_le.trans_eq offered.symm
  have lower := (inv.upTo _).symm.trans_le (finished.sublist.countP_le (p := p.takes))
  have upper := (begun.sublist.countP_le (p := p.takes)).trans_eq (inv.upTo _)
  exact ⟨(le_min le_rfl behind).trans lower, upper.trans (Nat.min_le_left _ _),
    (upper.trans (Nat.min_le_right _ _)).trans_eq inv.length.symm⟩

theorem HandedInv.taken_idle {p : Payload c α} {h : Handed α} (inv : HandedInv p s h)
    (rings : RingInv num s) (idle : s.loop.pc.busy p.queue = false) :
    h.taken p = (s.entered p.queue).length := by
  have calls : h.calls.calls p.queue = _ := inv.calls.idle p.queue idle
  have behind : (s.entered p.queue).length ≤ (h.calls.offered p.queue).length :=
    (rings.queues p.queue).entered_le.trans_eq (inv.calls.queues p.queue).length.symm
  rw [Handed.taken, calls, inv.upTo]
  exact min_eq_left behind

theorem HandedInv.empty (p : Payload c α) (calls : CallInv c s .none) : HandedInv p s .none where
  calls := calls
  once _ member := absurd member List.not_mem_nil
  length := rfl
  kept _ _ _ offered := by cases offered

/-! ## Steps -/

theorem ringMove_collected {n : Nat} {move : RingMove} {d d' : RingDriver} {vq vq' : Virtqueue}
    (action : ringMove n move d vq = some (d', vq')) : d.collected <+: d'.collected := by
  cases move with
  | setDesc i desc | storeSlot chain =>
      simp only [ringMove, Option.ite_none_right_eq_some, Option.some.injEq] at action
      obtain ⟨-, eq⟩ := action
      rw [← (Prod.mk.inj eq).1]
  | storeAvailIdx =>
      obtain ⟨chain, -, eq⟩ := Option.map_eq_some_iff.mp action
      rw [← (Prod.mk.inj eq).1]
  | loadUsedIdx => rw [← (Prod.mk.inj (Option.some.inj action)).1]
  | collect =>
      simp only [ringMove, Option.ite_none_right_eq_some, Option.some.injEq] at action
      obtain ⟨-, eq⟩ := action
      rw [← (Prod.mk.inj eq).1]
      exact List.prefix_append _ _

theorem update_collected {n : Nat} {q : Nat} {move : RingMove} {drivers : Nat → RingDriver}
    {d : RingDriver} {vq vq' : Virtqueue} (action : ringMove n move (drivers q) vq = some (d, vq'))
    (k : Nat) : (drivers k).collected <+: (Function.update drivers q d k).collected := by
  by_cases own : k = q
  · subst own
    rw [Function.update_self]
    exact ringMove_collected action
  · rw [Function.update_of_ne own]

theorem Calls.driver_calls {q : Nat} {move : RingMove} {d : RingDriver} {vq : Virtqueue}
    (r : Calls) : (r.driver q move d vq).calls = r.calls := by
  cases move <;> rfl

theorem Calls.driver_offered (r : Calls) (q : Nat) (move : RingMove) (d : RingDriver)
    (vq : Virtqueue) (k : Nat) : r.offered k <+: (r.driver q move d vq).offered k := by
  cases move with
  | storeAvailIdx =>
      by_cases own : k = q
      · subst own
        simp [driver]
      · simp [driver, own]
  | _ => exact List.prefix_rfl

theorem Payload.note_driver (ρ : Type*) (p : Payload c α) (q : Nat) (move : RingMove) (s : Rings σ)
    (h : Handed α) : ∃ new : List (List Desc),
      (p.note (.driver q move : RingLabel ρ) s h).calls.offered p.queue =
        h.calls.offered p.queue ++ new ∧
      (p.note (.driver q move : RingLabel ρ) s h).payloads =
        h.payloads ++ new.map (p.read s.shared.mem) ∧
      (∀ descs ∈ new, descs ∈ s.handedOver p.queue) ∧
      (p.note (.driver q move : RingLabel ρ) s h).calls.calls = h.calls.calls := by
  cases move with
  | storeAvailIdx =>
      by_cases own : q = p.queue
      · subst own
        cases pending : (s.drivers p.queue).pending with
        | none =>
            refine ⟨[], ?_, ?_, by simp, rfl⟩
            all_goals simp [note, Calls.note, Calls.driver, published, pending]
        | some chain =>
            refine ⟨[(s.shared.queues p.queue).descs chain], ?_, ?_, fun descs member => ?_, rfl⟩
            · simp [note, Calls.note, Calls.driver, pending]
            · simp [note, published, pending]
            · rw [List.mem_singleton.mp member]
              exact List.mem_map_of_mem (mem_outstanding.mpr (.inr pending))
      · have other : p.queue ≠ q := Ne.symm own
        refine ⟨[], ?_, ?_, by simp, rfl⟩
        all_goals simp [note, Calls.note, Calls.driver, published, own, other]
  | _ => exact ⟨[], by simp [note, Calls.note, Calls.driver], by simp [note, published], by simp, rfl⟩

section Steps
variable {ρ : Type*} {p : Payload c α} {h : Handed α} (inv : HandedInv p s h)
include inv

theorem HandedInv.guest (rings : RingInv num s) (regs : Regs) {mem : U64 → U8}
    (good : ∀ descs ∈ s.handedOver p.queue, p.good s.shared.mem descs)
    (kept : ∀ descs ∈ s.handedOver p.queue, SameBuffers c descs s.shared.mem mem) :
    HandedInv p { s with shared := { s.shared with regs, mem } } h := by
  refine ⟨⟨inv.calls.queues, inv.calls.idle, inv.calls.pc⟩, inv.once, inv.length, ?_⟩
  intro k later descs offered
  have held : descs ∈ s.handedOver p.queue :=
    inv.calls.handedOver rings ((inv.taken_between rings).1.trans later) offered
  have same := p.reads (good descs held) (kept descs held)
  exact (inv.kept k later descs offered).trans (congrArg some same.symm)

theorem HandedInv.driver (rings : RingInv num s) {q : Nat} {move : RingMove} {d : RingDriver}
    {vq : Virtqueue} (good : ∀ descs ∈ s.handedOver p.queue, p.good s.shared.mem descs)
    (action : ringMove (num q).num move (s.drivers q) (s.shared.queues q) = some (d, vq)) :
    HandedInv p { s with
      shared := { s.shared with queues := Function.update s.shared.queues q vq }
      drivers := Function.update s.drivers q d } (p.note (.driver q move : RingLabel ρ) s h) := by
  obtain ⟨new, offered, payloads, held, calls⟩ := p.note_driver ρ q move s h
  refine ⟨driver_step_calls rings inv.calls action, ?_, ?_, ?_⟩
  · intro descs member
    rcases List.mem_append.mp (offered ▸ member) with old | added
    · exact inv.once descs old
    · exact p.once (good descs (held descs added)) (rings.handedOver_terminated (held descs added))
  · rw [offered, payloads, List.length_append, List.length_append, List.length_map, inv.length]
  · intro k later descs member
    rw [Handed.taken, calls] at later
    rw [offered] at member
    rw [payloads]
    rcases Nat.lt_or_ge k h.payloads.length with old | added
    · rw [List.getElem?_append_left (inv.length ▸ old)] at member
      rw [List.getElem?_append_left old]
      exact inv.kept k later descs member
    · rw [List.getElem?_append_right (inv.length ▸ added), ← inv.length] at member
      rw [List.getElem?_append_right added, List.getElem?_map, member]
      rfl

theorem HandedInv.device {dev : Device σ ρ} (rings : RingInv num s) {a : Answer ρ} {loop : Loop σ}
    {shared : Shared} (inside : TakesInside num s (.device a))
    (action : loopStep dev c a s.loop s.shared = some (loop, shared))
    (kept : ∀ k ≥ (p.note (.device a) s h).taken p, ∀ descs,
      (h.calls.offered p.queue)[k]? = some descs →
      p.read shared.mem descs = p.read s.shared.mem descs) :
    HandedInv p { s with loop, shared, entered := enter s.loop.pc s.shared s.entered }
      (p.note (.device a) s h) := by
  have payloads : (p.note (.device a) s h).payloads = h.payloads := List.append_nil _
  have offered : (p.note (.device a) s h).calls.offered = h.calls.offered := h.calls.device_offered
  refine ⟨device_step_calls rings inv.calls inside action, ?_, ?_, ?_⟩
  · rw [offered]
    exact inv.once
  · rw [offered, payloads]
    exact inv.length
  · intro k later descs member
    rw [offered] at member
    rw [payloads, kept k later descs member]
    have grown : h.taken p ≤ (p.note (.device a) s h).taken p :=
      (h.calls.device_calls p.queue).sublist.countP_le
    exact inv.kept k (grown.trans later) descs member

end Steps

/-! ## A call -/

section Call
variable {ρ : Type*} {dev : Device σ ρ} {loop loop' : Loop σ} {shared shared' : Shared}
  {a : Answer ρ}

structure Uncalled (loop loop' : Loop σ) (shared shared' : Shared) : Prop where
  dev : loop'.vars.dev = loop.vars.dev
  mem : shared'.mem = shared.mem
  running : ∀ f, loop'.pc ≠ .fault f

theorem nextQueue_running (q : Nat) (f : Fault) : c.nextQueue q ≠ .fault f := by
  unfold Config.nextQueue
  split <;> simp

theorem loopStep_uncalled (quiet : loop.pc.callsBack = false)
    (action : loopStep dev c a loop shared = some (loop', shared')) :
    Uncalled loop loop' shared shared' := by
  unfold loopStep at action
  cases pc : loop.pc with
  | returned | fault f => simp [pc] at action
  | process w l addr more =>
      rw [pc] at quiet
      cases quiet
  | lower q =>
      simp only [pc, Option.some.injEq] at action
      obtain ⟨rfl, rfl⟩ := Prod.mk.inj action
      exact ⟨rfl, rfl, nextQueue_running q⟩
  | loadAvailIdx q | queueHasData q =>
      simp only [pc, Option.some.injEq] at action
      obtain ⟨rfl, rfl⟩ := Prod.mk.inj action
      refine ⟨rfl, rfl, fun f => ?_⟩
      dsimp only
      split
      · exact LoopPc.noConfusion
      · exact nextQueue_running q f
  | _ =>
      simp only [pc, Option.some.injEq] at action
      obtain ⟨rfl, rfl⟩ := Prod.mk.inj action
      refine ⟨rfl, rfl, fun f => ?_⟩
      dsimp only
      first | exact LoopPc.noConfusion | (split <;> exact LoopPc.noConfusion)

theorem loopStep_called {w : Walk} {l addr : U64} {more : Bool} {work : Work σ}
    (pc : loop.pc = .process w l addr more)
    (called : dev.entry c w.queue_idx more w.num_bytes_written addr l a.result
      ⟨loop.vars.dev, shared.mem⟩ = .ok work)
    (action : loopStep dev c a loop shared = some (loop', shared')) :
    loop'.vars.dev = work.dev ∧ shared'.mem = work.mem ∧ ∀ f, loop'.pc ≠ .fault f := by
  unfold loopStep at action
  simp only [pc, called, Option.some.injEq] at action
  obtain ⟨rfl, rfl⟩ := Prod.mk.inj action
  refine ⟨rfl, rfl, fun f => ?_⟩
  dsimp only
  split <;> exact LoopPc.noConfusion

theorem loopStep_process {w : Walk} {l addr : U64} {more : Bool}
    (pc : loop.pc = .process w l addr more)
    (action : loopStep dev c a loop shared = some (loop', shared'))
    (running : ∀ f, loop'.pc ≠ .fault f) : ∃ work,
      dev.entry c w.queue_idx more w.num_bytes_written addr l a.result
        ⟨loop.vars.dev, shared.mem⟩ = .ok work ∧ shared'.mem = work.mem := by
  cases called : dev.entry c w.queue_idx more w.num_bytes_written addr l a.result
      ⟨loop.vars.dev, shared.mem⟩ with
  | ok work => exact ⟨work, rfl, (loopStep_called pc called action).2.1⟩
  | error f =>
      unfold loopStep at action
      simp only [pc, called, Option.some.injEq] at action
      exact absurd (congrArg Loop.pc (Prod.mk.inj action).1).symm (running f)

theorem chainCalls_concat (count : U64) (before : List Desc) (d : Desc) :
    chainCalls c count (before ++ [d]) = chainCalls c count before ++
      [⟨c.callback d.hasNext (count + totalLength before), c.addr d, d.length⟩] := by
  rw [chainCalls_append]
  rfl

theorem chainCalls_incomplete {descs : List Desc} (more : ∀ d ∈ descs, d.hasNext = true)
    (count : U64) : (chainCalls c count descs).countP Call.completes = 0 := by
  induction descs generalizing count with
  | nil => rfl
  | cons d rest ih =>
      have first : ¬Call.completes ⟨c.callback d.hasNext count, c.addr d, d.length⟩ = true := by
        rw [more d List.mem_cons_self, Call.completes, decide_eq_true_iff]
        exact Config.callback_more count
      rw [chainCalls, List.countP_cons_of_neg first]
      exact ih (fun d member => more d (List.mem_cons_of_mem _ member)) _

theorem Terminated.before {before after : List Desc} {d : Desc}
    (terminated : Terminated (before ++ d :: after)) : ∀ e ∈ before, e.hasNext = true := by
  obtain ⟨front, last, eq⟩ := (List.eq_nil_or_concat (d :: after)).resolve_left (List.cons_ne_nil _ _)
  rw [eq, List.concat_eq_append, ← List.append_assoc] at terminated
  exact fun e member => (terminated_append.mp terminated).1 e (List.mem_append_left _ member)

theorem Terminated.last {before after : List Desc} {d : Desc}
    (terminated : Terminated (before ++ d :: after)) (last : d.hasNext = false) : after = [] := by
  cases after with
  | nil => rfl
  | cons e rest =>
      have split : before ++ d :: e :: rest = (before ++ [d]) ++ e :: rest := by simp
      rw [split] at terminated
      rw [terminated.before d (by simp)] at last
      cases last

structure Calling (c : Config) (s : Rings σ) (r : Calls) (w : Walk) (before : List Desc) (d : Desc)
    (after : List Desc) : Prop where
  offered : (r.offered w.queue_idx)[(s.entered w.queue_idx).length]? = some (before ++ d :: after)
  calls : r.calls w.queue_idx =
    (r.view s w.queue_idx).upTo c (s.entered w.queue_idx).length ++ chainCalls c 0 before
  count : w.num_bytes_written = totalLength before
  terminated : Terminated (before ++ d :: after)

theorem Calling.completed {w : Walk} {before after : List Desc} {d : Desc}
    (calling : Calling c s r w before d after) (inv : CallInv c s r) (rings : RingInv num s) :
    (r.calls w.queue_idx).countP Call.completes = (s.entered w.queue_idx).length := by
  have behind : (s.entered w.queue_idx).length ≤ (r.offered w.queue_idx).length :=
    (rings.queues w.queue_idx).entered_le.trans_eq (inv.queues w.queue_idx).length.symm
  have done : ((r.view s w.queue_idx).upTo c _).countP Call.completes = _ :=
    ((inv.queues w.queue_idx).upTo_completed _).trans (min_eq_left behind)
  rw [calling.calls, List.countP_append, chainCalls_incomplete calling.terminated.before]
  exact done

theorem Calling.others_kept {w : Walk} {before after : List Desc} {d : Desc}
    (calling : Calling c s r w before d after) (inv : CallInv c s r) (rings : RingInv num s)
    (apart : (s.handedOver w.queue_idx).Pairwise (ChainsApart c)) {mem : U64 → U8}
    (outside : ∀ x, ¬InRegion (c.addr d) d.len.toNat x → mem x = s.shared.mem x)
    {k : Nat} (other : k ≠ (s.entered w.queue_idx).length)
    (later : (s.drivers w.queue_idx).collected.length ≤ k) {descs : List Desc}
    (offered : (r.offered w.queue_idx)[k]? = some descs) : SameBuffers c descs s.shared.mem mem := by
  have entered : (s.drivers w.queue_idx).collected.length ≤ (s.entered w.queue_idx).length :=
    (rings.queues w.queue_idx).collected_le
  obtain ⟨i_lt, here⟩ := List.getElem?_eq_some_iff.mp (inv.handedOver_getElem entered calling.offered)
  obtain ⟨j_lt, there⟩ := List.getElem?_eq_some_iff.mp (inv.handedOver_getElem later offered)
  have pairs := List.pairwise_iff_getElem.mp apart
  have mine : d ∈ before ++ d :: after := List.mem_append_right _ List.mem_cons_self
  intro e member x inside
  refine outside x fun written => ?_
  rcases Nat.lt_or_gt_of_ne other with earlier | further
  · have apart := pairs _ _ j_lt i_lt (by omega)
    rw [here, there] at apart
    exact apart e member d mine x inside written
  · have apart := pairs _ _ i_lt j_lt (by omega)
    rw [here, there] at apart
    exact apart d mine e member x written inside

theorem CallInv.calling (inv : CallInv c s r) (rings : RingInv num s) {w : Walk} {l addr : U64}
    {more : Bool} (pc : s.loop.pc = .process w l addr more) :
    ∃ before d after, Calling c s r w before d after ∧ l = d.length ∧ addr = c.addr d ∧
      more = d.hasNext := by
  have own := inv.pc
  rw [pc] at own
  obtain ⟨⟨past, rest, next, calls, count⟩, len, from_addr, flags⟩ := own
  have offered := (inv.queues w.queue_idx).next (rings.queues w.queue_idx) next
  rw [Virtqueue.descs_append, Virtqueue.descs_cons] at offered
  exact ⟨_, _, _, ⟨offered, calls, count,
    (inv.queues w.queue_idx).terminated _ (List.mem_of_getElem? offered)⟩, len, from_addr, flags⟩

end Call

end

end TtBhLinux.Virtio
