import TtBhLinux.Virtio.ExactlyOnce

/-!
# Rings of the driver's size

`device_loop` reduces every index modulo `queue_size`; what the driver chose for a queue is never
read.
-/

namespace TtBhLinux.Virtio
open Common

section
variable {σ ρ : Type*} {dev : Device σ ρ} {c : Config} {num : Nat → QueueNum} {s : Rings σ}

/-- The next chain comes from its slot of the avail ring and is not stale, a descriptor has an index
below the size, and a used entry goes to its slot of the used ring. -/
def StepInside (num : Nat → QueueNum) (s : Rings σ) : Prop :=
  match s.loop.pc with
  | .loadHead q =>
      slot (s.loop.vars.processed q) = (s.loop.vars.processed q).toNat % (num q).num ∧
      ∃ chain, (s.drivers q).published[(s.entered q).length]? = some chain ∧
        (s.shared.queues q).avail.ring (slot (s.loop.vars.processed q)) = chainHead chain
  | .peekLen w | .peekAddr w | .loadLen w | .loadAddr w _ | .loadFlags w _ _ | .loadNext w =>
      slot w.desc_idx < (num w.queue_idx).num
  | .storeId w used_idx | .storeLen w used_idx =>
      slot used_idx = (s.shared.queues w.queue_idx).used.idx.toNat % (num w.queue_idx).num
  | _ => True

theorem QueueNum.slot_eq_iff (n : QueueNum) (i : U16) :
    slot i = i.toNat % n.num ↔ slot i < n.num := by
  rw [slot_eq]
  constructor
  · intro eq
    rw [eq]
    exact Nat.mod_lt _ n.pos
  · exact n.slot_mod

theorem Walking.slot_inside {n : QueueNum} {v : QueueView} {w : Walk} {rest : List U16}
    (inv : QueueInv n.num v) (walking : Walking n.num v w rest) : slot w.desc_idx < n.num := by
  rw [walking.slot_lt inv]
  exact (walking.linked inv).lt

theorem RingInv.used_inside (inv : RingInv num s) {w : Walk} {used_idx : U16} {chain : List U16}
    (idx : used_idx = (s.view w.queue_idx).vq.used.idx)
    (taken : Taken (num w.queue_idx).num (s.view w.queue_idx) w chain) :
    slot used_idx = (s.shared.queues w.queue_idx).used.idx.toNat % (num w.queue_idx).num := by
  have aligned : (s.entered w.queue_idx).length % 16384 < (num w.queue_idx).num := taken.2.1
  rw [used_slot inv idx, (num w.queue_idx).slot_mod aligned]
  exact ((congrArg (fun i : U16 => i.toNat % _) (inv.queues w.queue_idx).used_idx).trans
    ((num w.queue_idx).ofNat_mod _)).symm

theorem RingInv.stepInside_iff (inv : RingInv num s) (a : Answer ρ) :
    StepInside num s ↔ TakesInside num s (.device a) := by
  have own := inv.pc
  unfold StepInside TakesInside
  cases at_pc : s.loop.pc with
  | loadHead q =>
      rw [at_pc] at own
      obtain ⟨chain, next⟩ := own
      have count := inv.processed q (by simp [at_pc])
      constructor
      · rintro ⟨aligned, -⟩ q' same
        cases Option.some.inj same
        exact ((num q).slot_eq_iff _).mp aligned
      · intro inside
        have aligned := inside q rfl
        refine ⟨((num q).slot_eq_iff _).mpr aligned, chain, next, ?_⟩
        rw [count, slot_ofNat] at aligned ⊢
        exact (inv.queues q).next_head next aligned
  | peekLen w | peekAddr w | loadLen w | loadAddr w l | loadFlags w l addr =>
      rw [at_pc] at own
      obtain ⟨rest, walking⟩ := own
      simp [walking.slot_inside (inv.queues _), LoopPc.takes]
  | loadNext w =>
      rw [at_pc] at own
      obtain ⟨j, rest, walking⟩ := own
      simp [walking.slot_inside (inv.queues _), LoopPc.takes]
  | storeId w used_idx =>
      rw [at_pc] at own
      obtain ⟨idx, chain, taken⟩ := own
      simp [inv.used_inside idx taken, LoopPc.takes]
  | storeLen w used_idx =>
      rw [at_pc] at own
      obtain ⟨idx, -, chain, taken⟩ := own
      simp [inv.used_inside idx taken, LoopPc.takes]
  | _ => simp [LoopPc.takes]

end

/-- The device leaves the driver's areas exactly when it takes a chain from a slot beyond them. -/
theorem rings_inside_iff {σ ρ : Type*} (dev : Device σ ρ) (c : Config) (num : Nat → QueueNum)
    (s : Rings σ) (reachable : (rings dev c num).ReachableUnder (TakesInside num) s)
    (a : Answer ρ) : StepInside num s ↔ TakesInside num s (.device a) :=
  (rings_inv reachable).stepInside_iff a

/-! ## Queues of size 1 -/

def QueueNum.one : QueueNum := ⟨1, 0, by decide, rfl⟩

theorem rings_inside_first :
    ∃ s, (rings (Disk.virtioBlkDevice 0) (virtioBlk 0 0 33) fun _ => .one).runUnder
        (TakesInside fun _ => .one) (publishChain 0 ++ deviceSteps 5) ringStart = some s ∧
      s.loop.pc = .loadHead 0 ∧ StepInside (fun _ => .one) s := by
  have run : ∃ s, (rings (Disk.virtioBlkDevice 0) (virtioBlk 0 0 33) fun _ => .one).runUnder
      (TakesInside fun _ => .one) (publishChain 0 ++ deviceSteps 5) ringStart = some s ∧
      s.loop.pc = .loadHead 0 ∧ s.loop.vars.processed 0 = 0 := ⟨_, rfl, rfl, rfl⟩
  obtain ⟨s, action, at_pc, processed⟩ := run
  have initial : (rings (Disk.virtioBlkDevice 0) (virtioBlk 0 0 33) fun _ => .one).ReachableUnder
      (TakesInside fun _ => .one) ringStart := .start (ringStart_initial _)
  refine ⟨s, action, at_pc, (rings_inside_iff _ _ _ s (initial.runUnder _ action)
    ⟨false, true, ()⟩).mpr ?_⟩
  simp only [TakesInside, at_pc, LoopPc.takes, Option.mem_some_iff, forall_eq', processed]
  decide

theorem rings_of_one_overrun :
    ¬∀ s, (rings (Disk.virtioBlkDevice 0) (virtioBlk 0 0 33) fun _ => .one).Reachable s →
      StepInside (fun _ => .one) s := by
  intro inside
  have run : ∃ s, (rings (Disk.virtioBlkDevice 0) (virtioBlk 0 0 33) fun _ => .one).run
      (publishChain 0 ++ deviceSteps 21 ++ collectEntry ++ publishChain 0 ++ deviceSteps 5)
      ringStart = some s ∧ s.loop.pc = .loadHead 0 ∧ s.loop.vars.processed 0 = 1 :=
    ⟨_, rfl, rfl, rfl⟩
  obtain ⟨s, action, at_pc, processed⟩ := run
  have initial : (rings (Disk.virtioBlkDevice 0) (virtioBlk 0 0 33) fun _ => .one).Reachable
      ringStart := .start (ringStart_initial _)
  have first := inside s (initial.run _ action)
  simp only [StepInside, at_pc, processed] at first
  exact absurd first.1 (by decide)

end TtBhLinux.Virtio
