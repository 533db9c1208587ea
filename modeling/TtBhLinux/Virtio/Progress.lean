import TtBhLinux.Common.Service
import TtBhLinux.Virtio.Callbacks

/-!
# No chain waits for ever

`device_loop` comes to every queue once in a round and takes one chain there. So a queue whose data
is ready is served once in a bounded number of steps.
-/

namespace TtBhLinux.Virtio
open Common System

/-! ## How far the loop is from an entry -/

def visitSteps (len : Nat) : Nat := 5 * len + 13

def Config.roundSteps (c : Config) (len : Nat) : Nat := visitSteps len * (c.numQueues.toNat + 2)

section
variable (c : Config) (q len : Nat)

/-- The visits before the next one to queue `q`, counted from queue `j`; the tests between two
rounds count as one. -/
def Config.visitsTo (j : Nat) : Nat :=
  if j ≤ q then q - j else c.numQueues.toNat - (j + 1) + q + 2

def Config.awayAt (j : Nat) : Nat := visitSteps len * c.visitsTo q j

def awayTop : Nat := visitSteps len * (q + 1)

def Config.awayNext (j : Nat) : Nat :=
  if j + 1 < c.numQueues.toNat then c.awayAt q len (j + 1) + (5 * len + 8) else awayTop q len + 3

/-- The steps before the next entry in queue `q`, with `r` descriptors of the chain left. -/
def LoopPc.away (r : Nat) : LoopPc → Nat
  | .testExit => awayTop q len + 3
  | .testMagic => awayTop q len + 2
  | .ackInterrupt => awayTop q len + 1
  | .loadAvailIdx j => c.awayAt q len j + (5 * len + 8)
  | .queueHasData j => c.awayAt q len j + (5 * len + 7)
  | .loadHead j => c.awayAt q len j + (5 * len + 6)
  | .peekLen w => c.awayAt q len w.queue_idx + (5 * len + 5)
  | .peekAddr w => c.awayAt q len w.queue_idx + (5 * len + 4)
  | .loadLen w => c.awayAt q len w.queue_idx + (5 * r + 8)
  | .loadAddr w _ => c.awayAt q len w.queue_idx + (5 * r + 7)
  | .loadFlags w _ _ => c.awayAt q len w.queue_idx + (5 * r + 6)
  | .process w _ _ _ => c.awayAt q len w.queue_idx + (5 * r + 5)
  | .loadNext w => c.awayAt q len w.queue_idx + (5 * r + 4)
  | .loadUsedIdx w => c.awayAt q len w.queue_idx + 4
  | .storeId w _ => c.awayAt q len w.queue_idx + 3
  | .storeLen w _ => c.awayAt q len w.queue_idx + 2
  | .storeUsedIdx w _ => c.awayAt q len w.queue_idx + 1
  | .countProcessed j => c.awayNext q len j + 5
  | .loadInterruptStatus j => c.awayNext q len j + 4
  | .storeInterruptStatus j _ => c.awayNext q len j + 3
  | .raise j => c.awayNext q len j + 2
  | .lower j => c.awayNext q len j + 1
  | .returned | .fault _ => 1

end

def LoopPc.Remaining (num : Nat → QueueNum) (view : Nat → QueueView) (r : Nat) : LoopPc → Prop
  | .loadLen w | .loadAddr w _ | .loadFlags w _ _ =>
      ∃ rest, Walking (num w.queue_idx).num (view w.queue_idx) w rest ∧ rest.length = r
  | .process w _ _ more => ∃ rest, Walking (num w.queue_idx).num (view w.queue_idx) w rest ∧
      more = !rest.isEmpty ∧ rest.length = r
  | .loadNext w =>
      ∃ j rest, Walking (num w.queue_idx).num (view w.queue_idx) w (j :: rest) ∧
        rest.length + 1 = r
  | _ => True

section
variable {c : Config} {q len : Nat}

theorem visitsTo_succ {j : Nat} (other : j ≠ q) (next : j + 1 < c.numQueues.toNat) :
    c.visitsTo q (j + 1) + 1 = c.visitsTo q j := by
  unfold Config.visitsTo
  split <;> split <;> omega

theorem visitsTo_last {j : Nat} (exists_queue : q < c.numQueues.toNat) (other : j ≠ q)
    (last : ¬j + 1 < c.numQueues.toNat) : q + 2 = c.visitsTo q j := by
  unfold Config.visitsTo
  split <;> omega

variable (len) in
theorem awayNext_le (exists_queue : q < c.numQueues.toNat) {j : Nat} (other : j ≠ q) :
    c.awayNext q len j + 5 ≤ c.awayAt q len j := by
  unfold Config.awayNext Config.awayAt awayTop
  split
  · rename_i next
    rw [← visitsTo_succ other next, Nat.mul_succ]
    unfold visitSteps
    omega
  · rename_i last
    rw [← visitsTo_last exists_queue other last, Nat.mul_succ _ (q + 1)]
    unfold visitSteps
    omega

variable (c q len) in
theorem awayAt_zero : c.awayAt q len 0 + visitSteps len = awayTop q len := by
  unfold Config.awayAt Config.visitsTo awayTop
  rw [if_pos (Nat.zero_le q), Nat.mul_succ]
  rfl

theorem nextQueue_away (r j : Nat) : (c.nextQueue j).away c q len r = c.awayNext q len j := by
  unfold Config.nextQueue Config.awayNext
  split <;> rfl

theorem visitsTo_le (exists_queue : q < c.numQueues.toNat) (j : Nat) :
    c.visitsTo q j ≤ c.numQueues.toNat + 1 := by
  unfold Config.visitsTo
  split <;> omega

variable (len) in
theorem awayAt_le (exists_queue : q < c.numQueues.toNat) (j : Nat) :
    c.awayAt q len j + visitSteps len ≤ c.roundSteps len := by
  have within := Nat.mul_le_mul_left (visitSteps len) (visitsTo_le exists_queue j)
  unfold Config.awayAt Config.roundSteps
  rw [Nat.mul_succ]
  exact Nat.add_le_add_right within _

variable (len) in
theorem awayTop_le (exists_queue : q < c.numQueues.toNat) :
    awayTop q len + visitSteps len ≤ c.roundSteps len := by
  rw [awayTop, ← Nat.mul_succ, Config.roundSteps]
  exact Nat.mul_le_mul_left _ (by omega)

variable (len) in
theorem awayNext_round (exists_queue : q < c.numQueues.toNat) (j : Nat) :
    c.awayNext q len j + 5 ≤ c.roundSteps len := by
  have at_next := awayAt_le len exists_queue (j + 1)
  have top := awayTop_le len exists_queue
  unfold Config.awayNext
  unfold visitSteps at *
  split <;> omega

theorem LoopPc.away_pos (r : Nat) (pc : LoopPc) : 0 < pc.away c q len r := by
  cases pc <;> exact Nat.succ_pos _

theorem LoopPc.away_le (exists_queue : q < c.numQueues.toNat) {r : Nat} (short : r < len)
    (pc : LoopPc) : pc.away c q len r ≤ c.roundSteps len := by
  have at_queue := awayAt_le len exists_queue
  have next := awayNext_round len exists_queue
  have top := awayTop_le len exists_queue
  unfold visitSteps at *
  cases pc with
  | testExit | testMagic | ackInterrupt | returned | fault f =>
      simp only [away]
      omega
  | loadAvailIdx j | queueHasData j | loadHead j =>
      have := at_queue j
      simp only [away]
      omega
  | peekLen w | peekAddr w | loadLen w | loadAddr w l | loadFlags w l addr | process w l addr more
  | loadNext w | loadUsedIdx w | storeId w used_idx | storeLen w used_idx
  | storeUsedIdx w used_idx =>
      have := at_queue w.queue_idx
      simp only [away]
      omega
  | countProcessed j | loadInterruptStatus j | storeInterruptStatus j val | raise j | lower j =>
      have := next j
      simp only [away]
      omega

end

/-! ## The driver -/

def RingDriver.Short (len : Nat) (d : RingDriver) : Prop :=
  ∀ chain ∈ d.outstanding, chain.length ≤ len

def Rings.Short {σ : Type*} (len : Nat) (s : Rings σ) : Prop := ∀ q, (s.drivers q).Short len

def RingMove.Short (len : Nat) : RingMove → Prop
  | .storeSlot chain => chain.length ≤ len
  | _ => True

theorem ringMove_short {n len : Nat} {move : RingMove} {d d' : RingDriver} {vq vq' : Virtqueue}
    (short : d.Short len) (ok : move.Short len)
    (action : ringMove n move d vq = some (d', vq')) : d'.Short len := by
  intro chain member
  cases move with
  | setDesc i desc =>
      simp only [ringMove, Option.ite_none_right_eq_some, Option.some.injEq] at action
      obtain ⟨rfl, -⟩ := Prod.mk.inj action.2
      exact short chain member
  | storeSlot stored =>
      simp only [ringMove, Option.ite_none_right_eq_some, Option.some.injEq] at action
      obtain ⟨rfl, -⟩ := Prod.mk.inj action.2
      rcases mem_outstanding.mp member with old | new
      · exact short chain (mem_outstanding.mpr (.inl old))
      · cases Option.some.inj new
        exact ok
  | storeAvailIdx =>
      obtain ⟨stored, pending, eq⟩ := Option.map_eq_some_iff.mp action
      obtain ⟨rfl, -⟩ := Prod.mk.inj eq
      rcases mem_outstanding.mp member with old | new
      · rw [List.drop_append] at old
        rcases List.mem_append.mp old with older | last
        · exact short chain (mem_outstanding.mpr (.inl older))
        · cases List.mem_singleton.mp (List.mem_of_mem_drop last)
          exact short chain (mem_outstanding.mpr (.inr pending))
      · cases new
  | loadUsedIdx =>
      obtain ⟨rfl, -⟩ := Prod.mk.inj (Option.some.inj action)
      exact short chain member
  | collect =>
      simp only [ringMove, Option.ite_none_right_eq_some, Option.some.injEq] at action
      obtain ⟨rfl, -⟩ := Prod.mk.inj action.2
      refine short chain (mem_outstanding.mpr ((mem_outstanding.mp member).imp_left fun later => ?_))
      rw [List.length_append, ← List.drop_drop] at later
      exact List.mem_of_mem_drop later

theorem LoopPc.Remaining.evolves {num : Nat → QueueNum} {view view' : Nat → QueueView} {r : Nat}
    {pc : LoopPc} (remaining : pc.Remaining num view r)
    (evolves : ∀ q, Evolves (view q) (view' q)) : pc.Remaining num view' r := by
  cases pc with
  | loadLen w | loadAddr w l | loadFlags w l addr =>
      obtain ⟨rest, walking, eq⟩ := remaining
      exact ⟨rest, (evolves _).walking walking, eq⟩
  | process w l addr more =>
      obtain ⟨rest, walking, eq⟩ := remaining
      exact ⟨rest, (evolves _).walking walking, eq⟩
  | loadNext w =>
      obtain ⟨j, rest, walking, eq⟩ := remaining
      exact ⟨j, rest, (evolves _).walking walking, eq⟩
  | _ => trivial

theorem nextQueue_remaining {c : Config} (num : Nat → QueueNum) (view : Nat → QueueView)
    (j : Nat) {r : Nat} : (c.nextQueue j).Remaining num view r := by
  unfold Config.nextQueue
  split <;> trivial

/-! ## The device -/

section Device
variable {σ ρ : Type*} {dev : Device σ ρ} {c : Config} {num : Nat → QueueNum} {s : Rings σ}
  {q len : Nat}

theorem walking_short (rings : RingInv num s) (short : s.Short len) {w : Walk} {rest : List U16}
    (walking : Walking (num w.queue_idx).num (s.view w.queue_idx) w rest) : rest.length < len := by
  obtain ⟨chain, ⟨next, -, -⟩, suffix⟩ := walking
  have outstanding : chain ∈ (s.drivers w.queue_idx).outstanding :=
    outstanding_of_published (rings.queues w.queue_idx).collected_le next
  exact (Nat.lt_of_succ_le suffix.length_le).trans_le (short w.queue_idx chain outstanding)

theorem exists_remaining (rings : RingInv num s) (short : s.Short len) (some_len : 0 < len) :
    ∃ r < len, s.loop.pc.Remaining num s.view r := by
  have own := rings.pc
  cases pc : s.loop.pc with
  | loadLen w | loadAddr w l | loadFlags w l addr =>
      rw [pc] at own
      obtain ⟨rest, walking⟩ := own
      exact ⟨_, walking_short rings short walking, rest, walking, rfl⟩
  | process w l addr more =>
      rw [pc] at own
      obtain ⟨rest, walking, eq⟩ := own
      exact ⟨_, walking_short rings short walking, rest, walking, eq, rfl⟩
  | loadNext w =>
      rw [pc] at own
      obtain ⟨j, rest, walking⟩ := own
      exact ⟨_, walking_short rings short walking, j, rest, walking, rfl⟩
  | _ => exact ⟨0, some_len, trivial⟩

theorem processed_ne (rings : RingInv num s) (waits : (s.entered q).length <
    (s.drivers q).published.length) (pc : ∀ j, s.loop.pc ≠ .countProcessed j) :
    s.loop.vars.processed q ≠ (s.shared.queues q).avail.idx := by
  have inv := rings.queues q
  have room : (s.drivers q).published.length ≤ (s.entered q).length + 16384 :=
    inv.published_le.trans (Nat.add_le_add inv.collected_le (num q).le)
  rw [rings.processed q (pc q), show (s.shared.queues q).avail.idx = _ from inv.avail_idx]
  intro same
  have counts := congrArg BitVec.toNat same
  rw [BitVec.toNat_ofNat, BitVec.toNat_ofNat] at counts
  have published : (s.view q).driver.published.length = (s.drivers q).published.length := rfl
  omega

theorem device_step_left {a : Answer ρ} {r : Nat} {loop : Loop σ} {shared : Shared}
    (rings : RingInv num s) (short : s.Short len) (exists_queue : q < c.numQueues.toNat)
    (waits : (s.entered q).length < (s.drivers q).published.length)
    (remaining : s.loop.pc.Remaining num s.view r) (ready : dev.queueHasData q a.ready = true)
    (action : loopStep dev c a s.loop s.shared = some (loop, shared)) :
    (∃ w used_idx, s.loop.pc = .storeUsedIdx w used_idx ∧ w.queue_idx = q) ∨
    ∃ r', loop.pc.Remaining num ({ s with
        loop, shared, entered := enter s.loop.pc s.shared s.entered } : Rings σ).view r' ∧
      loop.pc.away c q len r' + 1 ≤ s.loop.pc.away c q len r := by
  have own := rings.pc
  unfold loopStep at action
  unfold enter
  cases at_pc : s.loop.pc with
  | returned | fault f => simp [at_pc] at action
  | testExit =>
      simp only [at_pc, Option.some.injEq] at action
      obtain ⟨rfl, rfl⟩ := Prod.mk.inj action
      refine .inr ⟨0, ?_, ?_⟩
      · split <;> trivial
      · split <;> simp [LoopPc.away]
  | testMagic =>
      simp only [at_pc, Option.some.injEq] at action
      obtain ⟨rfl, rfl⟩ := Prod.mk.inj action
      refine .inr ⟨0, ?_, ?_⟩
      · split <;> trivial
      · split <;> simp [LoopPc.away]
  | ackInterrupt =>
      simp only [at_pc, Option.some.injEq] at action
      obtain ⟨rfl, rfl⟩ := Prod.mk.inj action
      refine .inr ⟨0, trivial, ?_⟩
      have := awayAt_zero c q len
      unfold visitSteps at this
      simp only [LoopPc.away]
      omega
  | loadAvailIdx j =>
      simp only [at_pc, Option.some.injEq] at action
      obtain ⟨rfl, rfl⟩ := Prod.mk.inj action
      refine .inr ⟨0, ?_, ?_⟩
      · split
        · trivial
        · exact nextQueue_remaining _ _ _
      · split
        · exact Nat.le_refl _
        · rename_i nothing
          have other : j ≠ q := by
            rintro rfl
            exact nothing (processed_ne rings waits (by simp [at_pc]))
          have := awayNext_le len exists_queue other
          rw [nextQueue_away, LoopPc.away]
          omega
  | queueHasData j =>
      simp only [at_pc, Option.some.injEq] at action
      obtain ⟨rfl, rfl⟩ := Prod.mk.inj action
      refine .inr ⟨0, ?_, ?_⟩
      · split
        · trivial
        · exact nextQueue_remaining _ _ _
      · split
        · exact Nat.le_refl _
        · rename_i nothing
          have other : j ≠ q := by
            rintro rfl
            exact nothing ready
          have := awayNext_le len exists_queue other
          rw [nextQueue_away, LoopPc.away]
          omega
  | loadHead j | peekLen w =>
      simp only [at_pc, Option.some.injEq] at action
      obtain ⟨rfl, rfl⟩ := Prod.mk.inj action
      exact .inr ⟨0, trivial, Nat.le_refl _⟩
  | peekAddr w =>
      rw [at_pc] at own
      simp only [at_pc, Option.some.injEq] at action
      obtain ⟨rfl, rfl⟩ := Prod.mk.inj action
      obtain ⟨rest, walking⟩ := own
      have := walking_short rings short walking
      refine .inr ⟨rest.length, ⟨rest, walking, rfl⟩, ?_⟩
      simp only [LoopPc.away]
      omega
  | loadLen w | loadAddr w l =>
      rw [at_pc] at remaining
      simp only [at_pc, Option.some.injEq] at action
      obtain ⟨rfl, rfl⟩ := Prod.mk.inj action
      exact .inr ⟨r, remaining, Nat.le_refl _⟩
  | loadFlags w l addr =>
      rw [at_pc] at remaining
      simp only [at_pc, Option.some.injEq] at action
      obtain ⟨rfl, rfl⟩ := Prod.mk.inj action
      obtain ⟨rest, walking, left⟩ := remaining
      refine .inr ⟨r, ⟨rest, walking, ?_, left⟩, Nat.le_refl _⟩
      rw [Shared.desc, walking.slot_lt (rings.queues _)]
      exact (walking.linked (rings.queues _)).hasNext
  | process w l addr more =>
      rw [at_pc] at remaining
      obtain ⟨rest, walking, eq, left⟩ := remaining
      simp only [at_pc] at action
      split at action
      · obtain ⟨rfl, rfl⟩ := Prod.mk.inj (Option.some.inj action)
        refine .inr ⟨0, trivial, ?_⟩
        simp only [LoopPc.away]
        omega
      · obtain ⟨rfl, rfl⟩ := Prod.mk.inj (Option.some.inj action)
        cases rest with
        | nil =>
            rw [eq]
            refine .inr ⟨0, trivial, ?_⟩
            simp only [List.isEmpty_nil, Bool.not_true, Bool.false_eq_true, if_false, LoopPc.away]
            omega
        | cons j rest =>
            rw [eq]
            exact .inr ⟨r, ⟨j, rest, walking, left⟩, Nat.le_refl _⟩
  | loadNext w =>
      rw [at_pc] at remaining
      simp only [at_pc, Option.some.injEq] at action
      obtain ⟨rfl, rfl⟩ := Prod.mk.inj action
      obtain ⟨j, rest, walking, left⟩ := remaining
      have next : (s.shared.desc w).next = j := by
        rw [Shared.desc, walking.slot_lt (rings.queues _)]
        exact (walking.linked (rings.queues _)).2.2.1
      refine .inr ⟨rest.length, ⟨rest, ?_, rfl⟩, ?_⟩
      · rw [next]
        exact walking.advance _
      · simp only [LoopPc.away]
        omega
  | loadUsedIdx w | storeId w used_idx | storeLen w used_idx =>
      simp only [at_pc, Option.some.injEq] at action
      obtain ⟨rfl, rfl⟩ := Prod.mk.inj action
      exact .inr ⟨0, trivial, Nat.le_refl _⟩
  | storeUsedIdx w used_idx =>
      simp only [at_pc, Option.some.injEq] at action
      obtain ⟨rfl, rfl⟩ := Prod.mk.inj action
      by_cases own : w.queue_idx = q
      · exact .inl ⟨w, used_idx, rfl, own⟩
      · have := awayNext_le len exists_queue own
        refine .inr ⟨0, trivial, ?_⟩
        simp only [LoopPc.away]
        omega
  | countProcessed j | loadInterruptStatus j | storeInterruptStatus j val | raise j =>
      simp only [at_pc, Option.some.injEq] at action
      obtain ⟨rfl, rfl⟩ := Prod.mk.inj action
      exact .inr ⟨0, trivial, Nat.le_refl _⟩
  | lower j =>
      simp only [at_pc, Option.some.injEq] at action
      obtain ⟨rfl, rfl⟩ := Prod.mk.inj action
      exact .inr ⟨0, nextQueue_remaining _ _ _, by rw [nextQueue_away]; exact Nat.le_refl _⟩

/-! ## Runs -/

def RingLabel.isDevice : RingLabel ρ → Bool
  | .device _ => true
  | _ => false

/-- Queue `q` has data whenever the device asks, and the driver publishes chains of at most `len`
descriptors. -/
def Serves (dev : Device σ ρ) (q len : Nat) (_ : Rings σ) : RingLabel ρ → Prop
  | .device a => dev.queueHasData q a.ready = true
  | .driver _ move => move.Short len
  | .guest _ _ => True

theorem short_step {t : Rings σ} {label : RingLabel ρ} (short : s.Short len)
    (serves : Serves dev q len s label)
    (action : (Virtio.rings dev c num).step label s = some t) : t.Short len := by
  cases label with
  | device a =>
      obtain ⟨⟨loop, shared⟩, moved, rfl⟩ := Option.map_eq_some_iff.mp action
      exact short
  | driver k move =>
      obtain ⟨⟨d, vq⟩, moved, rfl⟩ := Option.map_eq_some_iff.mp action
      intro j
      by_cases same : j = k
      · subst same
        simpa using ringMove_short (short j) serves moved
      · simpa [same] using short j
  | guest regs mem =>
      cases Option.some.inj action
      exact short

theorem enter_length (pc : LoopPc) (shared : Shared) (entered : Nat → List U32) (k : Nat) :
    (entered k).length ≤ (enter pc shared entered k).length := by
  unfold enter
  split
  · rename_i w used_idx
    by_cases same : k = w.queue_idx
    · subst same
      simp
    · simp [same]
  · exact Nat.le_refl _

theorem published_step {t : Rings σ} {label : RingLabel ρ} (rings : RingInv num s)
    (action : (Virtio.rings dev c num).step label s = some t) :
    (s.drivers q).published <+: (t.drivers q).published := by
  cases label with
  | device a =>
      obtain ⟨⟨loop, shared⟩, moved, rfl⟩ := Option.map_eq_some_iff.mp action
      exact List.prefix_rfl
  | driver k move =>
      obtain ⟨⟨d, vq⟩, moved, rfl⟩ := Option.map_eq_some_iff.mp action
      by_cases same : q = k
      · subst same
        simpa using (ringMove_inv (rings.queues q) moved).2.2
      · simp [same]
  | guest regs mem =>
      cases Option.some.inj action
      exact List.prefix_rfl

def Rings.Left (num : Nat → QueueNum) (c : Config) (q len : Nat) (s : Rings σ) (m : Nat) : Prop :=
  ∃ r, s.loop.pc.Remaining num s.view r ∧ s.loop.pc.away c q len r = m

theorem queue_service (s₀ : Rings σ) (exists_queue : q < c.numQueues.toNat) (some_len : 0 < len) :
    Service (rings dev c fun _ => .max) (Serves dev q len) RingLabel.isDevice
      (fun s => RingInv (fun _ => .max) s ∧ s.Short len ∧
        (s₀.drivers q).published <+: (s.drivers q).published)
      (fun s => (s.entered q).length) (s₀.drivers q).published.length (c.roundSteps len)
      (Rings.Left (fun _ => .max) c q len) where
  inv_step s t label inv serves action :=
    ⟨ring_step inv.1 (takes_max s label) action, short_step inv.2.1 serves action,
      inv.2.2.trans (published_step inv.1 action)⟩
  mono s t label inv serves action := by
    cases label with
    | device a =>
        obtain ⟨⟨loop, shared⟩, moved, rfl⟩ := Option.map_eq_some_iff.mp action
        exact enter_length _ _ _ q
    | driver k move =>
        obtain ⟨⟨d, vq⟩, moved, rfl⟩ := Option.map_eq_some_iff.mp action
        exact Nat.le_refl _
    | guest regs mem =>
        cases Option.some.inj action
        exact Nat.le_refl _
  begin s inv waits := by
    obtain ⟨r, short, remaining⟩ := exists_remaining inv.1 inv.2.1 some_len
    exact ⟨_, ⟨r, remaining, rfl⟩, LoopPc.away_pos _ _, LoopPc.away_le exists_queue short _⟩
  step s t label m inv waits left serves action := by
    obtain ⟨rings, short, published⟩ := inv
    obtain ⟨r, remaining, rfl⟩ := left
    cases label with
    | device a =>
        obtain ⟨⟨loop, shared⟩, moved, rfl⟩ := Option.map_eq_some_iff.mp action
        rcases device_step_left rings short exists_queue (waits.trans_le published.length_le)
          remaining serves moved with ⟨w, used_idx, pc, own⟩ | ⟨r', remaining', falls⟩
        · subst own
          exact .inl (by simp [enter, pc])
        · exact .inr ⟨_, ⟨r', remaining', rfl⟩, LoopPc.away_pos _ _, falls⟩
    | driver k move =>
        obtain ⟨⟨d, vq⟩, moved, rfl⟩ := Option.map_eq_some_iff.mp action
        obtain ⟨-, used, more⟩ := ringMove_inv (rings.queues k) moved
        refine .inr ⟨_, ⟨r, remaining.evolves fun j => ?_, rfl⟩, LoopPc.away_pos _ _, Nat.le_refl _⟩
        rw [view_update]
        split
        · rename_i same
          subst same
          exact ⟨rfl, used, more⟩
        · exact .rfl
    | guest regs mem =>
        cases Option.some.inj action
        exact .inr ⟨_, ⟨r, remaining, rfl⟩, LoopPc.away_pos _ _, Nat.le_refl _⟩

theorem chains_served {s t : Rings σ} {n : Nat} (exists_queue : q < c.numQueues.toNat)
    (some_len : 0 < len) (reachable : (rings dev c fun _ => .max).Reachable s)
    (short : s.Short len)
    (run : ((rings dev c fun _ => .max).startingAt s).ReachableWith 0
      (countIf RingLabel.isDevice) (Serves dev q len) (t, n)) :
    min (s.drivers q).published.length ((s.entered q).length + n / c.roundSteps len) ≤
      (t.entered q).length := by
  have always : (rings dev c fun _ => .max).ReachableUnder (TakesInside fun _ => .max) s :=
    reachable.mono fun s label _ => takes_max s label
  exact (queue_service s exists_queue some_len).at_least
    ⟨rings_inv always, short, List.prefix_rfl⟩ run

end Device

instance (len : Nat) : ∀ move : RingMove, Decidable (move.Short len)
  | .storeSlot chain => inferInstanceAs (Decidable (chain.length ≤ len))
  | .setDesc _ _ | .storeAvailIdx | .loadUsedIdx | .collect => .isTrue trivial

instance {σ ρ : Type*} (dev : Device σ ρ) (q len : Nat) (s : Rings σ) :
    ∀ label : RingLabel ρ, Decidable (Serves dev q len s label)
  | .device a => inferInstanceAs (Decidable (dev.queueHasData q a.ready = true))
  | .driver _ move => inferInstanceAs (Decidable (move.Short len))
  | .guest _ _ => .isTrue trivial

abbrev diskRings : System (Rings Disk.VirtioBlk) (RingLabel Unit) :=
  rings (Disk.virtioBlkDevice 0) (virtioBlk 0 0 33) fun _ => .max

abbrev diskServes : Rings Disk.VirtioBlk → RingLabel Unit → Prop :=
  Serves (Disk.virtioBlkDevice 0) 0 1

set_option maxRecDepth 4000 in
theorem chains_served_disk : ∃ s t,
    diskRings.run (publishChain 7 ++ publishChain 9) ringStart = some s ∧
    ((diskRings.startingAt s).recorded 0 (countIf RingLabel.isDevice)).runUnder
      (fun s => diskServes s.1) (deviceSteps 108) (s, 0) = some (t, 108) ∧
    2 ≤ (t.entered 0).length := by
  have runs : ∃ s t, diskRings.run (publishChain 7 ++ publishChain 9) ringStart = some s ∧
      ((diskRings.startingAt s).recorded 0 (countIf RingLabel.isDevice)).runUnder
        (fun s => diskServes s.1) (deviceSteps 108) (s, 0) = some (t, 108) ∧
      s.drivers 0 = ⟨[[7], [9]], none, [], none⟩ ∧ (∀ q, s.drivers (q + 1) = .fresh) ∧
      s.entered 0 = [] := ⟨_, _, rfl, rfl, rfl, fun _ => rfl, rfl⟩
  obtain ⟨s, t, published, served, first, others, entered⟩ := runs
  have initial : diskRings.Reachable ringStart := .start (ringStart_initial _)
  have start : ((diskRings.startingAt s).recorded 0 (countIf RingLabel.isDevice)).ReachableUnder
      (fun s => diskServes s.1) (s, 0) := .start ⟨rfl, rfl⟩
  have short : s.Short 1 := by
    intro q chain member
    cases q with
    | zero =>
        rw [first] at member
        have single : ∀ chain ∈ ([[7], [9]] : List (List U16)), chain.length ≤ 1 := by decide
        exact single chain member
    | succ q =>
        rw [others q] at member
        cases member
  have enough := chains_served (by decide) Nat.one_pos (initial.run _ published) short
    (start.runUnder _ served)
  refine ⟨s, t, published, served, ?_⟩
  rw [first, entered] at enough
  exact enough

end TtBhLinux.Virtio
