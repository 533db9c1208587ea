import TtBhLinux.Virtio.Accesses

/-!
# The translation of guest addresses

Every pointer that a device uses is `hostPointer` of the address that the guest has supplied for it,
so all its accesses are the ranges of the guest, moved by one and the same distance.
-/

namespace TtBhLinux.Virtio
open Common

/-! ## device_setup -/

def Setup.Translated (c : Config) (s : Setup) : Prop :=
  ∀ area, ∀ q < c.numQueues.toNat, s.pointer area q = c.hostPointer (s.address area q)

def SetupPc.hasPointers : SetupPc → Bool
  | .waitDriverOk | .returned => true
  | _ => false

theorem setupStep_translated {c : Config} {exit : Bool} {s s' : Setup} {r r' : Regs}
    (action : setupStep c exit s r = some (s', r'))
    (before : s.pc.hasPointers = true → s.Translated c) :
    s'.pc.hasPointers = true → s'.Translated c := by
  unfold setupStep at action
  cases at_pc : s.pc <;> simp only [at_pc, reduceCtorEq] at action
  case pointers =>
    cases action
    intro _ area q lt
    simp only [Setup.setPointers, if_pos lt]
  case waitDriverOk =>
    cases action
    exact fun _ => before (by simp [at_pc, SetupPc.hasPointers])
  case queueLow area q high =>
    intro has
    split at action
    · cases action
      cases area <;> cases has
    · cases action
      cases has
  all_goals
    intro has
    try split at action
  all_goals
    obtain ⟨rfl, -⟩ := Prod.mk.inj (Option.some.inj action)
    dsimp only at has
    try split at has
  all_goals cases has

/-! ## device_loop -/

section
variable {σ ρ : Type*} {dev : Device σ ρ}

structure WalkTracked (fp : Footprint dev) (c : Config) (header : U64) (d : σ) (w : Walk) :
    Prop where
  queue : w.queue_idx < c.numQueues.toNat
  kept : ¬w.num_bytes_written < c.queueHeaderSize → ∀ p ∈ fp.kept d, p = c.hostPointer header

def LoopTracked (fp : Footprint dev) (c : Config) (given header : U64) (l : Loop σ) : Prop :=
  match l.pc with
  | .loadAvailIdx q | .queueHasData q | .loadHead q | .countProcessed q | .loadInterruptStatus q
  | .storeInterruptStatus q _ | .raise q | .lower q => q < c.numQueues.toNat
  | .peekLen w | .peekAddr w | .loadLen w | .loadAddr w _ | .loadNext w =>
      WalkTracked fp c header l.vars.dev w
  | .loadFlags w _ addr | .process w _ addr _ =>
      WalkTracked fp c header l.vars.dev w ∧ addr = c.hostPointer given
  | .loadUsedIdx w | .storeId w _ | .storeLen w _ | .storeUsedIdx w _ =>
      w.queue_idx < c.numQueues.toNat
  | .testExit | .testMagic | .ackInterrupt | .returned | .fault _ => True

variable {fp : Footprint dev} {c : Config} {given header : U64}

theorem nextQueue_tracked (q : Nat) (vars : Locals σ) :
    LoopTracked fp c given header ⟨c.nextQueue q, vars⟩ := by
  unfold Config.nextQueue
  split
  · assumption
  · trivial

theorem process_tracked {w : Walk} {addr len : U64} {result : ρ} {work work' : Work σ}
    (h : WalkTracked fp c header work.dev w) (eq : addr = c.hostPointer given)
    (called : dev.callback (c.callback true w.num_bytes_written) w.queue_idx addr len result work =
      .ok work') (count : U64) :
    WalkTracked fp c (if c.callback true w.num_bytes_written = .start then given else header)
      work'.dev { w with num_bytes_written := count } := by
  refine ⟨h.queue, fun _ p kept => ?_⟩
  by_cases start : c.callback true w.num_bytes_written = .start
  · rw [start] at called
    rw [if_pos start, fp.starts called p kept, eq]
  · rw [fp.keeps start called] at kept
    rw [if_neg start]
    exact h.kept (mt Config.callback_start.mpr start) p kept

theorem LoopTracked.step {a : Answer ρ} {l l' : Loop σ} {s s' : Shared}
    (h : LoopTracked fp c given header l) (positive : 0 < c.queueHeaderSize)
    (action : loopStep dev c a l s = some (l', s')) :
    LoopTracked fp c (l.pc.given s given) (l.pc.header c given header) l' := by
  unfold loopStep at action
  unfold LoopTracked at h
  cases at_pc : l.pc with
  | returned | fault f => simp [at_pc] at action
  | testExit | testMagic =>
      simp only [at_pc, Option.some.injEq] at action
      cases action
      split <;> trivial
  | ackInterrupt =>
      simp only [at_pc, Option.some.injEq] at action
      cases action
      exact c.numQueues_pos
  | loadAvailIdx q | queueHasData q =>
      simp only [at_pc, Option.some.injEq] at action h
      cases action
      split
      · exact h
      · exact nextQueue_tracked q l.vars
  | loadHead q =>
      simp only [at_pc, Option.some.injEq] at action h
      cases action
      exact ⟨h, fun past => absurd positive past⟩
  | lower q =>
      simp only [at_pc, Option.some.injEq] at action
      cases action
      exact nextQueue_tracked q l.vars
  | loadAddr w len =>
      simp only [at_pc, Option.some.injEq] at action h
      cases action
      exact ⟨h, rfl⟩
  | process w len addr more =>
      simp only [at_pc] at action h
      split at action
      · cases action
        trivial
      · rename_i called
        cases action
        cases more with
        | false => exact h.1.queue
        | true =>
            rw [Device.entry_eq] at called
            exact process_tracked h.1 h.2 called _
  | loadNext w =>
      simp only [at_pc, Option.some.injEq] at action h
      cases action
      exact ⟨h.queue, h.kept⟩
  | _ =>
      simp only [at_pc, Option.some.injEq] at action h
      cases action
      exact h

/-! ## Whole runs -/

def TrackedInv (fp : Footprint dev) (c : Config) (t : Tracked σ) : Prop :=
  match t.thread.stage with
  | .setup s _ => t.setup = s ∧ (s.pc.hasPointers = true → s.Translated c)
  | .loop l => t.setup.Translated c ∧ LoopTracked fp c t.given t.header l
  | .construct | .ended => True

section Step
variable {t : Tracked σ} {thread : Thread σ}

theorem record_off (label : ThreadLabel σ ρ) (off : ∀ l, t.thread.stage ≠ .loop l) :
    t.record c label thread = { t with thread, setup := thread.stage.members t.setup } := by
  unfold Tracked.record
  split
  · rename_i l at_loop
    exact absurd at_loop (off l)
  · rfl

theorem device_tracked {ready : Bool} {result : ρ} (inv : TrackedInv fp c t)
    (positive : 0 < c.queueHeaderSize)
    (action : t.thread.device dev c ready result = some thread) :
    TrackedInv fp c (t.record c (.device ready result : ThreadLabel σ ρ) thread) := by
  unfold TrackedInv at inv
  cases device_cases action with
  | setup at_stage moved =>
      rw [record_off _ (by simp [at_stage])]
      rw [at_stage] at inv
      exact ⟨rfl, setupStep_translated moved inv.2⟩
  | enter at_stage finished =>
      rw [record_off _ (by simp [at_stage])]
      rw [at_stage] at inv
      obtain ⟨same, translated⟩ := inv
      refine ⟨?_, trivial⟩
      show t.setup.Translated c
      rw [same]
      exact translated (by simp [finished, SetupPc.hasPointers])
  | loop at_stage running moved =>
      rw [at_stage] at inv
      unfold Tracked.record
      simp only [at_stage]
      exact ⟨inv.1, inv.2.step positive moved⟩
  | leave at_stage finished =>
      unfold Tracked.record
      simp only [at_stage]
      trivial

theorem construct_tracked {device : σ} (action : t.thread.construct c device = some thread) :
    TrackedInv fp c (t.record c (.construct device : ThreadLabel σ ρ) thread) := by
  unfold Thread.construct at action
  split at action
  · rename_i at_stage
    rw [record_off _ (by simp [at_stage])]
    split at action
    · cases action
      trivial
    · cases action
      exact ⟨rfl, fun has => absurd has (by decide)⟩
  · cases action

theorem guest_tracked (inv : TrackedInv fp c t) (same : thread.stage = t.thread.stage) :
    TrackedInv fp c { t with thread, setup := thread.stage.members t.setup } := by
  unfold TrackedInv at inv ⊢
  dsimp only
  rw [same]
  cases at_stage : t.thread.stage with
  | setup s d =>
      rw [at_stage] at inv
      exact ⟨rfl, inv.2⟩
  | loop l =>
      rw [at_stage] at inv
      exact inv
  | construct | ended => trivial

theorem tracked_inv (positive : 0 < c.queueHeaderSize) (reachable : (tracked dev c).Reachable t) :
    TrackedInv fp c t := by
  apply reachable.invariant
  · rintro t ⟨constructing, -⟩
    unfold TrackedInv
    rw [constructing]
    trivial
  · intro t t' label inv _ action
    obtain ⟨thread, moved, rfl⟩ := Option.map_eq_some_iff.mp action
    cases label with
    | construct device => exact construct_tracked moved
    | device ready result => exact device_tracked inv positive moved
    | storeStatus value | guest shared | setExit =>
        cases Option.some.inj moved
        exact guest_tracked inv rfl

/-- The addresses beside a thread do not constrain its runs. -/
theorem tracked_complete (reachable : (lifecycle dev c).Reachable thread) :
    ∃ t, (tracked dev c).Reachable t ∧ t.thread = thread := by
  induction reachable with
  | start initial => exact ⟨⟨_, .start, 0, 0⟩, .start initial, rfl⟩
  | @next thread thread' label _ _ action ih =>
      obtain ⟨t, reachable, rfl⟩ := ih
      have next : (tracked dev c).step label t = some (t.record c label thread') := by
        show Option.map _ _ = _
        rw [action, Option.map_some]
      refine ⟨t.record c label thread', .next reachable trivial next, ?_⟩
      · unfold Tracked.record
        split <;> rfl

end Step

/-! ## Moved ranges -/

theorem LoopPc.ringTouch_queue {pc : LoopPc} {processed : Nat → U16} {vars : Locals σ}
    {touch : Touch (Area × Nat) 64} (tracked : LoopTracked fp c given header ⟨pc, vars⟩)
    (touches : pc.ringTouch processed = some touch) :
    touch.pointer.2 < c.numQueues.toNat := by
  cases pc <;> simp only [ringTouch, Option.some.injEq, reduceCtorEq] at touches
  case loadFlags =>
    subst touches
    exact tracked.1.queue
  case peekLen | peekAddr | loadLen | loadAddr | loadNext =>
    subst touches
    exact tracked.queue
  all_goals
    subst touches
    exact tracked

def Config.distance (c : Config) : U64 := c.memory - c.startingAddress

theorem Config.hostPointer_eq (c : Config) (a : U64) : c.hostPointer a = a + c.distance := by
  rw [hostPointer, distance]
  ring

theorem TrackedInv.inside_iff {t : Tracked σ} (inv : TrackedInv fp c t) (result : ρ) (base : U64)
    (size : Nat) :
    (∀ range ∈ t.accesses fp c result, range.Inside (base + c.distance) size) ↔
      ∀ range ∈ t.supplied fp c result, range.Inside base size := by
  unfold TrackedInv at inv
  cases at_stage : t.thread.stage with
  | loop l =>
      rw [at_stage] at inv
      obtain ⟨translated, tracked⟩ := inv
      simp only [Tracked.accesses, Tracked.supplied, Tracked.ranges, at_stage,
        List.forall_mem_append]
      refine and_congr (Touch.all_inside_iff fun touch member => ?_) ?_
      · rw [translated _ _ (l.pc.ringTouch_queue tracked (Option.mem_toList.mp member)),
          c.hostPointer_eq]
      · cases at_pc : l.pc with
        | process w len addr more =>
            simp only [LoopTracked, at_pc] at tracked
            refine Touch.all_inside_iff fun touch member => ?_
            cases pointer : touch.pointer with
            | addr => exact tracked.2.trans (c.hostPointer_eq _)
            | kept =>
                obtain ⟨data, some⟩ := fp.uses_kept member pointer
                obtain ⟨p, kept⟩ := Option.isSome_iff_exists.mp some
                have past := Config.callback_data data
                rw [kept]
                exact (tracked.1.kept past p kept).trans (c.hostPointer_eq _)
        | _ => simp
  | _ => simp [Tracked.accesses, Tracked.supplied, Tracked.ranges, at_stage]

end
end TtBhLinux.Virtio
