import TtBhLinux.Disk.VirtioBlk
import TtBhLinux.Virtio.RingSteps

/-!
# Every published chain is entered exactly once, in order

With rings of `queue_size` entries every step takes its chain from inside the ring, so that the
invariant holds of all reachable states.
-/

namespace TtBhLinux.Virtio
open Common

section Step
variable {σ ρ : Type*} {dev : Device σ ρ} {c : Config} {num : Nat → QueueNum} {s : Rings σ}

theorem nextQueue_inv (q : Nat) (view : Nat → QueueView) : (c.nextQueue q).Inv num view := by
  unfold Config.nextQueue
  split <;> trivial

theorem nextQueue_ne (q q' : Nat) : c.nextQueue q ≠ .countProcessed q' := by
  unfold Config.nextQueue
  split <;> simp

theorem RingInv.quiet (inv : RingInv num s) {pc : LoopPc} {vars : Locals σ} {shared : Shared}
    (before : ∀ q, s.loop.pc ≠ .countProcessed q) (after : ∀ q, pc ≠ .countProcessed q)
    (processed : vars.processed = s.loop.vars.processed)
    (queues : shared.queues = s.shared.queues) (pc_inv : pc.Inv num s.view) :
    RingInv num { s with loop := ⟨pc, vars⟩, shared := shared } := by
  have view : ({ s with loop := ⟨pc, vars⟩, shared := shared } : Rings σ).view = s.view := by
    funext q
    simp [Rings.view, queues]
  refine ⟨fun q => view ▸ inv.queues q, fun q _ => ?_, fun q counting => absurd counting (after q),
    view ▸ pc_inv⟩
  rw [processed]
  exact inv.processed q (before q)

theorem view_updateUsed (s : Rings σ) (q q' : Nat) (f : UsedRing → UsedRing) (loop : Loop σ)
    (entered : Nat → List U32) (others : ∀ k ≠ q, entered k = s.entered k) :
    ({ s with loop := loop, shared := s.shared.updateUsed q f, entered := entered } : Rings σ).view
        q' =
      if q' = q then
        ⟨s.drivers q, { s.shared.queues q with used := f (s.shared.queues q).used }, entered q⟩
      else s.view q' := by
  by_cases same : q' = q
  · subst same
    simp [Rings.view, Shared.updateUsed]
  · simp [Rings.view, Shared.updateUsed, same, others q' same]

theorem RingInv.stored (inv : RingInv num s) {q : Nat} {f : UsedRing → UsedRing} {pc : LoopPc}
    (entered : Nat → List U32) (others : ∀ k ≠ q, entered k = s.entered k)
    (queue : QueueInv (num q).num
      ⟨s.drivers q, { s.shared.queues q with used := f (s.shared.queues q).used }, entered q⟩)
    (processed : ∀ k, pc ≠ .countProcessed k →
      s.loop.vars.processed k = .ofNat 16 (entered k).length)
    (counting : ∀ k, pc = .countProcessed k →
      s.loop.vars.processed k + 1 = .ofNat 16 (entered k).length)
    (pc_inv : pc.Inv num fun q' => if q' = q then
        ⟨s.drivers q, { s.shared.queues q with used := f (s.shared.queues q).used }, entered q⟩
      else s.view q') :
    RingInv num { s with
      loop := { s.loop with pc }, shared := s.shared.updateUsed q f, entered := entered } := by
  have view : ({ s with
      loop := { s.loop with pc }, shared := s.shared.updateUsed q f, entered := entered } :
      Rings σ).view = fun q' => if q' = q then
        ⟨s.drivers q, { s.shared.queues q with used := f (s.shared.queues q).used }, entered q⟩
      else s.view q' :=
    funext fun q' => view_updateUsed s q q' f _ entered others
  refine ⟨fun q' => ?_, processed, counting, view ▸ pc_inv⟩
  rw [view]
  dsimp only
  split
  · rename_i same
    subst same
    exact queue
  · exact inv.queues q'

theorem used_slot (inv : RingInv num s) {q : Nat} {used_idx : U16}
    (idx : used_idx = (s.view q).vq.used.idx) : slot used_idx = (s.entered q).length % 16384 := by
  rw [idx, (inv.queues q).used_idx, slot_ofNat]
  rfl

theorem RingInv.takes_next (inv : RingInv num s) {q : Nat} {chain : List U16}
    (next : (s.view q).Next chain) (at_pc : s.loop.pc = .loadHead q)
    (inside : slot (s.loop.vars.processed q) < (num q).num) :
    let i := (s.shared.queues q).avail.ring (slot (s.loop.vars.processed q))
    Walking (num q).num (s.view q) ⟨q, i, i, 0⟩ chain.tail := by
  have count := inv.processed q (by simp [at_pc])
  rw [count, slot_ofNat] at inside ⊢
  have head : (s.shared.queues q).avail.ring ((s.entered q).length % 16384) = chainHead chain :=
    (inv.queues q).next_head next inside
  refine ⟨chain, ⟨next, inside, head⟩, ?_⟩
  rw [head, ← ((inv.queues q).next_linked next).eq_cons]

theorem RingInv.storeEntry (inv : RingInv num s) {w : Walk} {used_idx : U16} {chain : List U16}
    {f : UsedRing → UsedRing} {entry : UsedElem} {pc : LoopPc}
    (idx : used_idx = (s.view w.queue_idx).vq.used.idx)
    (taken : Taken (num w.queue_idx).num (s.view w.queue_idx) w chain)
    (stores : f (s.shared.queues w.queue_idx).used =
      (s.shared.queues w.queue_idx).used.setEntry (slot used_idx) entry)
    (id : entry.id = w.desc_idx_first.setWidth 32) (before : ∀ q, s.loop.pc ≠ .countProcessed q)
    (goes_on : pc = .storeLen w used_idx ∨ pc = .storeUsedIdx w used_idx) :
    RingInv num { s with
      loop := { s.loop with pc }, shared := s.shared.updateUsed w.queue_idx f } := by
  apply inv.stored s.entered (fun _ _ => rfl)
  · rw [stores, used_slot inv idx]
    exact (inv.queues _).setEntry taken.1 taken.2.1 _
  · exact fun k _ => inv.processed k (before k)
  · rcases goes_on with rfl | rfl <;> simp
  · rcases goes_on with rfl | rfl
    all_goals
      simp only [LoopPc.Inv, if_true, stores, setEntry_self]
      exact ⟨idx, id, chain, taken⟩

theorem RingInv.storeUsedIdx (inv : RingInv num s) {w : Walk} {used_idx : U16} {chain : List U16}
    (idx : used_idx = (s.view w.queue_idx).vq.used.idx)
    (id : ((s.view w.queue_idx).vq.used.ring (slot used_idx)).id = w.desc_idx_first.setWidth 32)
    (taken : Taken (num w.queue_idx).num (s.view w.queue_idx) w chain)
    (before : ∀ q, s.loop.pc ≠ .countProcessed q) :
    RingInv num { s with
      loop := { s.loop with pc := .countProcessed w.queue_idx }
      shared := s.shared.storeUsedIdx w used_idx
      entered := enter (.storeUsedIdx w used_idx) s.shared s.entered } := by
  have count := inv.processed w.queue_idx (before w.queue_idx)
  refine inv.stored (enter (.storeUsedIdx w used_idx) s.shared s.entered)
    (fun k ne => Function.update_of_ne ne _ _) ?_ (fun k other => ?_) (fun k same => ?_) trivial
  · simp only [enter, Function.update_self]
    rw [used_slot inv idx] at id ⊢
    rw [idx]
    exact (inv.queues _).enter taken id
  · have ne : k ≠ w.queue_idx := fun eq => other (by rw [eq])
    rw [enter, Function.update_of_ne ne]
    exact inv.processed k (before k)
  · obtain rfl : w.queue_idx = k := by simpa using same
    rw [enter, Function.update_self, List.length_append, count]
    exact ofNat_succ _

theorem device_step_inv {a : Answer ρ} {loop : Loop σ} {shared : Shared} (inv : RingInv num s)
    (inside : TakesInside num s (.device a))
    (action : loopStep dev c a s.loop s.shared = some (loop, shared)) :
    RingInv num { s with loop, shared, entered := enter s.loop.pc s.shared s.entered } := by
  have own := inv.pc
  unfold loopStep at action
  unfold enter
  cases at_pc : s.loop.pc with
  | returned | fault f => simp [at_pc] at action
  | testExit | testMagic =>
      simp only [at_pc, Option.some.injEq] at action
      obtain ⟨rfl, rfl⟩ := Prod.mk.inj action
      refine inv.quiet (by simp [at_pc]) (fun q => ?_) rfl rfl ?_
      · split <;> simp
      · split <;> trivial
  | ackInterrupt =>
      simp only [at_pc, Option.some.injEq] at action
      obtain ⟨rfl, rfl⟩ := Prod.mk.inj action
      exact inv.quiet (by simp [at_pc]) (by simp) rfl rfl trivial
  | loadAvailIdx q =>
      simp only [at_pc, Option.some.injEq] at action
      obtain ⟨rfl, rfl⟩ := Prod.mk.inj action
      refine inv.quiet (by simp [at_pc]) (fun q' => ?_) rfl rfl ?_
      · split
        · simp
        · exact nextQueue_ne q q'
      · split
        · rename_i ne
          rw [inv.processed q (by simp [at_pc])] at ne
          exact (inv.queues q).exists_next ne
        · exact nextQueue_inv q _
  | queueHasData q =>
      rw [at_pc] at own
      simp only [at_pc, Option.some.injEq] at action
      obtain ⟨rfl, rfl⟩ := Prod.mk.inj action
      refine inv.quiet (by simp [at_pc]) (fun q' => ?_) rfl rfl ?_
      · split
        · simp
        · exact nextQueue_ne q q'
      · split
        · exact own
        · exact nextQueue_inv q _
  | loadHead q =>
      rw [at_pc] at own
      simp only [at_pc, Option.some.injEq] at action
      obtain ⟨rfl, rfl⟩ := Prod.mk.inj action
      obtain ⟨chain, next⟩ := own
      exact inv.quiet (by simp [at_pc]) (by simp) rfl rfl
        ⟨chain.tail, inv.takes_next next at_pc (inside q (at_pc ▸ rfl))⟩
  | peekLen w | peekAddr w | loadLen w | loadAddr w l =>
      rw [at_pc] at own
      simp only [at_pc, Option.some.injEq] at action
      obtain ⟨rfl, rfl⟩ := Prod.mk.inj action
      exact inv.quiet (by simp [at_pc]) (by simp) rfl rfl own
  | loadFlags w l addr =>
      rw [at_pc] at own
      simp only [at_pc, Option.some.injEq] at action
      obtain ⟨rfl, rfl⟩ := Prod.mk.inj action
      obtain ⟨rest, walking⟩ := own
      refine inv.quiet (by simp [at_pc]) (by simp) rfl rfl ⟨rest, walking, ?_⟩
      rw [Shared.desc, walking.slot_lt (inv.queues _)]
      exact (walking.linked (inv.queues _)).hasNext
  | process w l addr more =>
      rw [at_pc] at own
      obtain ⟨rest, ⟨chain, taken, suffix⟩, eq⟩ := own
      simp only [at_pc] at action
      split at action
      · obtain ⟨rfl, rfl⟩ := Prod.mk.inj (Option.some.inj action)
        exact inv.quiet (by simp [at_pc]) (by simp) rfl rfl trivial
      · obtain ⟨rfl, rfl⟩ := Prod.mk.inj (Option.some.inj action)
        refine inv.quiet (by simp [at_pc]) (fun q => ?_) rfl rfl ?_
        · split <;> simp
        · cases rest with
          | nil =>
              rw [eq]
              exact ⟨chain, taken⟩
          | cons j rest =>
              rw [eq]
              exact ⟨j, rest, chain, taken, suffix⟩
  | loadNext w =>
      rw [at_pc] at own
      simp only [at_pc, Option.some.injEq] at action
      obtain ⟨rfl, rfl⟩ := Prod.mk.inj action
      obtain ⟨j, rest, walking⟩ := own
      refine inv.quiet (by simp [at_pc]) (by simp) rfl rfl ⟨rest, ?_⟩
      have next : (s.shared.desc w).next = j := by
        rw [Shared.desc, walking.slot_lt (inv.queues _)]
        exact (walking.linked (inv.queues _)).2.2.1
      rw [next]
      exact walking.advance _
  | loadUsedIdx w =>
      rw [at_pc] at own
      simp only [at_pc, Option.some.injEq] at action
      obtain ⟨rfl, rfl⟩ := Prod.mk.inj action
      exact inv.quiet (by simp [at_pc]) (by simp) rfl rfl ⟨rfl, own⟩
  | storeId w used_idx =>
      rw [at_pc] at own
      simp only [at_pc, Option.some.injEq] at action
      obtain ⟨rfl, rfl⟩ := Prod.mk.inj action
      obtain ⟨idx, chain, taken⟩ := own
      exact inv.storeEntry idx taken rfl rfl (by simp [at_pc]) (.inl rfl)
  | storeLen w used_idx =>
      rw [at_pc] at own
      simp only [at_pc, Option.some.injEq] at action
      obtain ⟨rfl, rfl⟩ := Prod.mk.inj action
      obtain ⟨idx, id, chain, taken⟩ := own
      exact inv.storeEntry idx taken rfl id (by simp [at_pc]) (.inr rfl)
  | storeUsedIdx w used_idx =>
      rw [at_pc] at own
      simp only [at_pc, Option.some.injEq] at action
      obtain ⟨rfl, rfl⟩ := Prod.mk.inj action
      obtain ⟨idx, id, chain, taken⟩ := own
      exact inv.storeUsedIdx idx id taken (by simp [at_pc])
  | countProcessed q =>
      simp only [at_pc, Option.some.injEq] at action
      obtain ⟨rfl, rfl⟩ := Prod.mk.inj action
      refine ⟨inv.queues, fun k _ => ?_, by simp, trivial⟩
      by_cases same : k = q
      · subst same
        simpa [Locals.publish] using inv.counting k at_pc
      · simpa [Locals.publish, same] using inv.processed k (by simpa [at_pc] using Ne.symm same)
  | loadInterruptStatus q | storeInterruptStatus q val | raise q =>
      simp only [at_pc, Option.some.injEq] at action
      obtain ⟨rfl, rfl⟩ := Prod.mk.inj action
      exact inv.quiet (by simp [at_pc]) (by simp) rfl rfl trivial
  | lower q =>
      simp only [at_pc, Option.some.injEq] at action
      obtain ⟨rfl, rfl⟩ := Prod.mk.inj action
      exact inv.quiet (by simp [at_pc]) (nextQueue_ne q) rfl rfl (nextQueue_inv q _)

theorem rings_inv (reachable : (rings dev c num).ReachableUnder (TakesInside num) s) :
    RingInv num s := by
  apply reachable.invariant
  · rintro s ⟨at_pc, processed, indices, drivers, entered⟩
    refine ⟨fun q => ?_, fun q _ => ?_, fun q counting => ?_, ?_⟩
    · have view : s.view q = ⟨.fresh, s.shared.queues q, []⟩ := by
        simp only [Rings.view, drivers, entered]
      rw [view]
      exact .fresh (indices q).1 (indices q).2
    · rw [processed, entered]
      rfl
    · simp [at_pc] at counting
    · rw [at_pc]
      trivial
  · intro s t label inv inside action
    cases label with
    | device a =>
        obtain ⟨⟨loop, shared⟩, moved, rfl⟩ := Option.map_eq_some_iff.mp action
        exact device_step_inv inv inside moved
    | driver q move =>
        obtain ⟨⟨d, vq⟩, moved, rfl⟩ := Option.map_eq_some_iff.mp action
        exact driver_step_inv inv moved
    | guest regs mem =>
        cases Option.some.inj action
        exact ⟨inv.queues, inv.processed, inv.counting, inv.pc⟩

structure ExactlyOnce (n : Nat) (s : Rings σ) (q : Nat) : Prop where
  ordered : s.entered q <+: (s.drivers q).published.map chainId
  collected : (s.drivers q).collected <+: s.entered q
  counted : (s.shared.queues q).used.idx = .ofNat 16 (s.entered q).length
  agree : s.loop.pc ≠ .countProcessed q →
    (s.shared.queues q).used.idx = s.loop.vars.processed q
  advancing : s.loop.pc = .countProcessed q →
    (s.shared.queues q).used.idx = s.loop.vars.processed q + 1
  behind : (s.entered q).length ≤ (s.drivers q).published.length
  kept : Keeps n (fun i => ((s.shared.queues q).used.ring i).id) (s.entered q)
    (s.drivers q).collected.length

theorem RingInv.exactlyOnce (inv : RingInv num s) (q : Nat) : ExactlyOnce (num q).num s q where
  ordered := (inv.queues q).ordered
  collected := (inv.queues q).collected
  counted := (inv.queues q).used_idx
  agree ne := ((inv.queues q).used_idx).trans (inv.processed q ne).symm
  advancing counting := ((inv.queues q).used_idx).trans (inv.counting q counting).symm
  behind := (inv.queues q).entered_le
  kept := (inv.queues q).used

end Step

theorem exactly_once {σ ρ : Type*} (dev : Device σ ρ) (c : Config) (s : Rings σ)
    (reachable : (rings dev c fun _ => .max).Reachable s) (q : Nat) :
    ExactlyOnce queueSize.toNat s q := by
  have always : (rings dev c fun _ => .max).ReachableUnder (TakesInside fun _ => .max) s :=
    reachable.mono fun s label _ => by
      cases label with
      | device a => exact fun q _ => slot_lt _
      | _ => trivial
  exact (rings_inv always).exactlyOnce q

/-! ## Two chains of one descriptor -/

def ringStart : Rings Disk.VirtioBlk where
  loop := ⟨.testExit, fun _ => 0, 0, fun _ => 0⟩
  shared :=
    { regs := .constructed (virtioBlk 0 0 33)
      interruptRegister := 0
      queues := fun _ => ⟨fun _ => ⟨0x3000, 1, 2, 0⟩, ⟨0, fun _ => 0⟩, ⟨0, fun _ => ⟨0, 0⟩⟩⟩
      mem := fun _ => 0 }
  drivers _ := .fresh
  entered _ := []

theorem ringStart_initial (num : Nat → QueueNum) :
    (rings (Disk.virtioBlkDevice 0) (virtioBlk 0 0 33) num).init ringStart :=
  ⟨rfl, fun _ => rfl, fun _ => ⟨rfl, rfl⟩, fun _ => rfl, fun _ => rfl⟩

def publishChain (i : U16) : List (RingLabel Unit) :=
  [.driver 0 (.storeSlot [i]), .driver 0 .storeAvailIdx]

def collectEntry : List (RingLabel Unit) := [.driver 0 .loadUsedIdx, .driver 0 .collect]

def deviceSteps (n : Nat) : List (RingLabel Unit) := List.replicate n (.device ⟨false, true, ()⟩)

/-- The second chain is published while the device is at the first. -/
def publishedTwice : List (RingLabel Unit) :=
  publishChain 7 ++ deviceSteps 5 ++ publishChain 9 ++ deviceSteps 37 ++ collectEntry ++ collectEntry

theorem exactly_once_round :
    ∃ s, (rings (Disk.virtioBlkDevice 0) (virtioBlk 0 0 33) fun _ => .max).run publishedTwice
        ringStart = some s ∧
      (s.drivers 0).collected = [7, 9] ∧ ExactlyOnce queueSize.toNat s 0 := by
  have run : ∃ s, (rings (Disk.virtioBlkDevice 0) (virtioBlk 0 0 33) fun _ => .max).run publishedTwice
      ringStart = some s ∧ (s.drivers 0).collected = [7, 9] := ⟨_, rfl, rfl⟩
  obtain ⟨s, action, collected⟩ := run
  have initial : (rings (Disk.virtioBlkDevice 0) (virtioBlk 0 0 33) fun _ => .max).Reachable
      ringStart := .start (ringStart_initial _)
  exact ⟨s, action, collected, exactly_once _ _ s (initial.run _ action) 0⟩

end TtBhLinux.Virtio
