import TtBhLinux.Disk.VirtioBlk
import TtBhLinux.Virtio.Lifecycle

/-!
# Resets

A reset counts for the phases of `device_setup` that are still to come. `device_loop` never reads
status: it ends when it finds `magic_value` overwritten.
-/

namespace TtBhLinux.Virtio
open Common

/-! ## A pass over the queues

A pass is at `3 * q` before the load of `avail->idx` for queue `q`, at `3 * q + 1` after it and at
`3 * q + 2` after the store of `used->idx`. -/

/-- The pass has come to `n`; outside of a pass the last one has come to its end. -/
def LoopPc.Past (n : Nat) : LoopPc → Prop
  | .ackInterrupt => n = 0
  | .loadAvailIdx q => n ≤ 3 * q
  | .queueHasData q | .loadHead q => n ≤ 3 * q + 1
  | .peekLen w | .peekAddr w | .loadLen w | .loadAddr w _ | .loadFlags w _ _ | .process w _ _ _
  | .loadNext w | .loadUsedIdx w | .storeId w _ | .storeLen w _ | .storeUsedIdx w _ =>
      n ≤ 3 * w.queue_idx + 1
  | .countProcessed q | .loadInterruptStatus q | .storeInterruptStatus q _ | .raise q | .lower q =>
      n ≤ 3 * q + 2
  | .testExit | .testMagic | .returned | .fault _ => True

def LoopPc.Reaches (n : Nat) : LoopPc → Prop
  | .loadAvailIdx q => n ≤ 3 * q + 1
  | .storeUsedIdx w _ => n ≤ 3 * w.queue_idx + 2
  | pc => pc.Past n

theorem LoopPc.Past.reaches {n : Nat} {pc : LoopPc} (past : pc.Past n) : pc.Reaches n := by
  cases pc with
  | loadAvailIdx q | storeUsedIdx w used_idx => exact Nat.le_succ_of_le past
  | _ => exact past

theorem nextQueue_past (c : Config) {n q : Nat} (le : n ≤ 3 * q + 3) : (c.nextQueue q).Past n := by
  unfold Config.nextQueue
  split
  · exact le
  · trivial

section
variable {σ ρ : Type*} {dev : Device σ ρ} {c : Config}

section Loop
variable {a : Answer ρ} {l l' : Loop σ} {s s' : Shared}

theorem loopStep_past (broken : s.regs.magicValue ≠ virtMagic)
    (action : loopStep dev c a l s = some (l', s')) {n : Nat} (reaches : l.pc.Reaches n) :
    l'.pc.Past n := by
  unfold loopStep at action
  cases at_pc : l.pc with
  | returned | fault f => simp [at_pc] at action
  | testExit =>
      simp only [at_pc, Option.some.injEq] at action
      cases action
      dsimp only
      split <;> trivial
  | testMagic =>
      simp only [at_pc, bne_iff_ne, broken, ne_eq, not_false_eq_true, if_true] at action
      cases action
      trivial
  | ackInterrupt =>
      rw [at_pc] at reaches
      simp only [at_pc, Option.some.injEq] at action
      cases action
      exact Nat.le_of_eq reaches
  | loadAvailIdx q | queueHasData q =>
      rw [at_pc] at reaches
      simp only [at_pc, Option.some.injEq] at action
      cases action
      dsimp only
      split
      · exact reaches
      · exact nextQueue_past c (Nat.le_trans reaches (by omega))
  | process w len addr more =>
      rw [at_pc] at reaches
      simp only [at_pc] at action
      split at action
      · cases action
        trivial
      · cases action
        cases more <;> exact reaches
  | countProcessed q =>
      rw [at_pc] at reaches
      simp only [at_pc, Option.some.injEq] at action
      cases action
      exact reaches
  | lower q =>
      rw [at_pc] at reaches
      simp only [at_pc, Option.some.injEq] at action
      cases action
      exact nextQueue_past c (Nat.le_succ_of_le reaches)
  | _ =>
      rw [at_pc] at reaches
      simp only [at_pc, Option.some.injEq] at action
      cases action
      exact reaches

theorem loopStep_regs (action : loopStep dev c a l s = some (l', s')) :
    s'.regs.magicValue = s.regs.magicValue ∧ s'.regs.status = s.regs.status := by
  unfold loopStep at action
  cases at_pc : l.pc with
  | returned | fault f => simp [at_pc] at action
  | process w len addr more =>
      simp only [at_pc] at action
      split at action
      · cases action
        exact ⟨rfl, rfl⟩
      · cases action
        exact ⟨rfl, rfl⟩
  | _ =>
      simp only [at_pc, Option.some.injEq] at action
      cases action
      exact ⟨rfl, rfl⟩

end Loop

/-! ## The phases of device_setup -/

def Ends (c : Config) (s : Setup) (r : Regs) (p : Phase) : Prop :=
  r.grants p = true ∨ p = .queues ∧ s.pc = .queueAck (c.numQueues - 1)

theorem Phase.rank_lt (p : Phase) : p.rank < 4 := by
  cases p <;> decide

theorem Phase.lt_or_eq {p q : Phase} (behind : p.rank < q.rank + 1) : p.rank < q.rank ∨ p = q := by
  cases p <;> cases q <;> simp [rank] at behind ⊢

theorem setupStep_passed {s s' : Setup} {r r' : Regs} {p : Phase}
    (action : setupStep c false s r = some (s', r')) (behind : p.rank < s'.pc.passed) :
    p.rank < s.pc.passed ∨ Ends c s r p := by
  unfold setupStep at action
  cases at_pc : s.pc with
  | waitDriver =>
      simp only [at_pc, Bool.false_or, Option.some.injEq] at action
      cases action
      dsimp only at behind
      split at behind
      · rename_i granted
        rcases Phase.lt_or_eq (q := .driver) behind with earlier | rfl
        · exact .inl earlier
        · exact .inr (.inl (by simpa [Regs.grants, Phase.bit] using granted))
      · cases behind
  | featStatus =>
      simp only [at_pc, Option.some.injEq] at action
      cases action
      dsimp only at behind
      split at behind
      · rename_i granted
        rcases Phase.lt_or_eq (q := .featuresOk) behind with earlier | rfl
        · exact .inl earlier
        · exact .inr (.inl (by simpa [Regs.grants, Phase.bit] using granted))
      · exact .inl behind
  | queueAck q =>
      simp only [at_pc, Option.some.injEq] at action
      cases action
      dsimp only at behind
      split at behind
      · rename_i last
        subst last
        rcases Phase.lt_or_eq (q := .queues) behind with earlier | rfl
        · exact .inl earlier
        · exact .inr (.inr ⟨rfl, at_pc⟩)
      · exact .inl behind
  | waitDriverOk =>
      simp only [at_pc, Bool.false_or, Option.some.injEq] at action
      cases action
      dsimp only at behind
      split at behind
      · rename_i granted
        rcases Phase.lt_or_eq (q := .driverOk) behind with earlier | rfl
        · exact .inl earlier
        · exact .inr (.inl (by simpa [Regs.grants, Phase.bit] using granted))
      · exact .inl behind
  | returned | fault array index => simp [at_pc] at action
  | queueGen =>
      simp only [at_pc, Bool.false_eq_true, if_false, Option.some.injEq] at action
      cases action
      exact .inl behind
  | featGen | featDeviceSel | featDriverSel | queueReady =>
      simp only [at_pc, Bool.false_eq_true, if_false, Option.some.injEq] at action
      cases action
      dsimp only at behind
      split at behind <;> first | exact .inl behind | cases behind
  | queueLow area q high =>
      simp only [at_pc] at action
      split at action
      · cases action
        cases area <;> exact .inl behind
      · cases action
        cases behind
  | _ =>
      simp only [at_pc, Option.some.injEq] at action
      cases action
      exact .inl behind

/-! ## The invariant -/

def Stage.Constructed : Stage σ → Prop
  | .setup _ _ | .loop _ => True
  | .construct | .ended => False

def Stage.Past (n : Nat) : Stage σ → Prop
  | .loop l => l.pc.Past n
  | _ => True

def Thread.Live (t : Thread σ) : Prop :=
  t.exit_thread_flag = false ∨ ∃ l, t.stage = .loop l ∧ l.pc ≠ .testExit ∧ l.pc ≠ .returned

structure ResetInv (t : Thread σ) : Prop where
  granted : t.stage.Constructed → ∀ p, t.shared.regs.grants p = true → t.history.done p = true
  behind : t.Live → ∀ p, t.history.resetAt ≤ p.rank → p.rank < t.stage.passed →
    t.history.done p = true
  intact : t.shared.regs.magicValue = virtMagic →
    ∀ q, t.history.visits q = 0 ∧ t.history.entries q = 0
  visits : ∀ q, t.history.visits q = 0 ∨ t.history.visits q = 1 ∧ t.stage.Past (3 * q + 1)
  entries : ∀ q, t.history.entries q = 0 ∨ t.history.entries q = 1 ∧ t.stage.Past (3 * q + 2)

theorem grants_status {r r' : Regs} (same : r'.status = r.status) (p : Phase) :
    r'.grants p = r.grants p := by
  have bits : r'.hasStatus = r.hasStatus := funext fun bit => by simp only [Regs.hasStatus, same]
  rw [Regs.grants, bits, Regs.grants]

theorem grants_zero {r : Regs} (zero : r.status = 0) (p : Phase) : r.grants p = false := by
  cases p <;> simp [Regs.grants, Phase.bit, Regs.hasStatus, zero]

theorem History.setup_done {h : History} {c : Config} {pc : SetupPc} {p : Phase}
    (done : h.done p = true) : (h.setup c pc).done p = true := by
  unfold History.setup
  split
  · by_cases same : p = .queues <;> simp [same, done]
  · exact done

theorem History.setup_other (h : History) (c : Config) (pc : SetupPc) :
    (h.setup c pc).resetAt = h.resetAt ∧ (h.setup c pc).visits = h.visits ∧
      (h.setup c pc).entries = h.entries := by
  unfold History.setup
  split <;> exact ⟨rfl, rfl, rfl⟩

theorem History.loop_other (h : History) (s : Shared) (pc : LoopPc) :
    (h.loop s pc).resetAt = h.resetAt ∧ (h.loop s pc).done = h.done := by
  unfold History.loop
  split
  · exact ⟨rfl, rfl⟩
  · split <;> exact ⟨rfl, rfl⟩

theorem History.loop_intact {h : History} {s : Shared} {pc : LoopPc}
    (intact : s.regs.magicValue = virtMagic) : h.loop s pc = h :=
  if_pos intact

theorem History.loop_visits (h : History) (s : Shared) (pc : LoopPc) (q : Nat) :
    (h.loop s pc).visits q = h.visits q ∨
      pc = .loadAvailIdx q ∧ (h.loop s pc).visits q = h.visits q + 1 := by
  unfold History.loop
  split
  · exact .inl rfl
  · split
    · rename_i p
      by_cases same : q = p
      · subst same
        exact .inr ⟨rfl, by simp⟩
      · exact .inl (by simp [same])
    · exact .inl rfl
    · exact .inl rfl

theorem History.loop_entries (h : History) (s : Shared) (pc : LoopPc) (q : Nat) :
    (h.loop s pc).entries q = h.entries q ∨
      (∃ w used_idx, pc = .storeUsedIdx w used_idx ∧ w.queue_idx = q) ∧
        (h.loop s pc).entries q = h.entries q + 1 := by
  unfold History.loop
  split
  · exact .inl rfl
  · split
    · exact .inl rfl
    · rename_i w used_idx
      by_cases same : w.queue_idx = q
      · exact .inr ⟨⟨w, used_idx, rfl, same⟩, by simp [same]⟩
      · exact .inl (by simp [Ne.symm same])
    · exact .inl rfl

section Step
variable {t t' : Thread σ}

theorem ResetInv.off (inv : ResetInv t) {stage : Stage σ} (off : ¬stage.Constructed) :
    ResetInv { t with stage } := by
  have past (n : Nat) : stage.Past n := by
    cases stage with
    | loop l => exact absurd trivial off
    | _ => trivial
  refine ⟨fun constructed => absurd constructed off, fun _ p _ passed => ?_, inv.intact,
    fun q => (inv.visits q).imp_right fun h => ⟨h.1, past _⟩,
    fun q => (inv.entries q).imp_right fun h => ⟨h.1, past _⟩⟩
  cases stage with
  | construct | ended => cases passed
  | _ => exact absurd trivial off

theorem construct_inv {device : σ} (inv : ResetInv t) (action : t.construct c device = some t') :
    ResetInv t' := by
  unfold Thread.construct at action
  split at action
  · split at action
    · cases action
      exact inv.off id
    · cases action
      refine ⟨fun _ p granted => ?_, fun _ _ _ passed => absurd passed (Nat.not_lt_zero _),
        fun _ _ => ⟨rfl, rfl⟩, fun _ => .inl rfl, fun _ => .inl rfl⟩
      rw [grants_zero rfl] at granted
      cases granted
  · cases action

theorem setupStep_inv {s s' : Setup} {d : σ} {regs : Regs} (inv : ResetInv t)
    (at_setup : t.stage = .setup s d)
    (action : setupStep c t.exit_thread_flag s t.shared.regs = some (s', regs)) :
    ResetInv { t with
      stage := .setup s' d
      shared := { t.shared with regs }
      history := t.history.setup c s.pc } := by
  have keeps := setupStep_keeps action
  obtain ⟨resetAt, visits, entries⟩ := t.history.setup_other c s.pc
  refine ⟨fun _ p granted => ?_, fun live p since passed => ?_, fun magic => ?_, fun q => ?_,
    fun q => ?_⟩
  · rw [grants_status keeps.status] at granted
    exact History.setup_done (inv.granted (by simp [at_setup, Stage.Constructed]) p granted)
  · have running : t.exit_thread_flag = false := live.resolve_right (by simp)
    rw [running] at action
    dsimp only at since
    rw [resetAt] at since
    rcases setupStep_passed action passed with earlier | granted | ⟨rfl, last⟩
    · have before : p.rank < t.stage.passed := by simpa [at_setup, Stage.passed] using earlier
      exact History.setup_done (inv.behind (.inl running) p since before)
    · exact History.setup_done (inv.granted (by simp [at_setup, Stage.Constructed]) p granted)
    · simp [History.setup, last]
  · dsimp only at magic ⊢
    rw [visits, entries]
    exact inv.intact (keeps.magicValue ▸ magic)
  · dsimp only
    rw [visits]
    exact (inv.visits q).imp_right fun h => ⟨h.1, trivial⟩
  · dsimp only
    rw [entries]
    exact (inv.entries q).imp_right fun h => ⟨h.1, trivial⟩

section Loop
variable {a : Answer ρ} {l l' : Loop σ} {s s' : Shared}

theorem loopStep_live (action : loopStep dev c a l s = some (l', s')) (goes_on : l'.pc ≠ .returned)
    (at_pc : l.pc = .testExit) : a.exit = false := by
  simp only [loopStep, at_pc, Option.some.injEq] at action
  cases action
  simpa using goes_on

theorem loopStep_count {n count count' : Nat} (broken : s.regs.magicValue ≠ virtMagic)
    (action : loopStep dev c a l s = some (l', s'))
    (before : count = 0 ∨ count = 1 ∧ l.pc.Past n)
    (counted : count' = count ∨ (¬l.pc.Past n ∧ l.pc.Reaches n) ∧ count' = count + 1) :
    count' = 0 ∨ count' = 1 ∧ l'.pc.Past n := by
  rcases counted with rfl | ⟨⟨ahead, reaches⟩, rfl⟩
  · exact before.imp_right fun h => ⟨h.1, loopStep_past broken action h.2.reaches⟩
  · rcases before with rfl | ⟨-, past⟩
    · exact .inr ⟨rfl, loopStep_past broken action reaches⟩
    · exact absurd past ahead

end Loop

theorem loopStep_inv {ready : Bool} {result : ρ} {l l' : Loop σ} {shared : Shared}
    (inv : ResetInv t) (at_loop : t.stage = .loop l) (running : l.pc ≠ .returned)
    (action : loopStep dev c ⟨t.exit_thread_flag, ready, result⟩ l t.shared = some (l', shared)) :
    ResetInv { t with
      stage := .loop l', shared := shared, history := t.history.loop t.shared l.pc } := by
  obtain ⟨magicValue, status⟩ := loopStep_regs action
  obtain ⟨resetAt, done⟩ := t.history.loop_other t.shared l.pc
  refine ⟨fun _ p granted => ?_, fun live p since passed => ?_, fun magic => ?_, fun q => ?_,
    fun q => ?_⟩
  · dsimp only at granted ⊢
    rw [grants_status status] at granted
    rw [done]
    exact inv.granted (by simp [at_loop, Stage.Constructed]) p granted
  · have before : t.Live := by
      rcases live with clear | ⟨_, same, _, goes_on⟩
      · exact .inl clear
      · cases same
        by_cases at_pc : l.pc = .testExit
        · exact .inl (loopStep_live action goes_on at_pc)
        · exact .inr ⟨l, at_loop, at_pc, running⟩
    dsimp only at since ⊢
    rw [resetAt] at since
    rw [done]
    exact inv.behind before p since (by simpa [at_loop, Stage.passed] using passed)
  · have intact : t.shared.regs.magicValue = virtMagic := magicValue ▸ magic
    dsimp only
    rw [History.loop_intact intact]
    exact inv.intact intact
  · by_cases intact : t.shared.regs.magicValue = virtMagic
    · dsimp only
      rw [History.loop_intact intact]
      exact .inl (inv.intact intact q).1
    · apply loopStep_count intact action (by simpa [at_loop, Stage.Past] using inv.visits q)
      refine (t.history.loop_visits t.shared l.pc q).imp_right fun h => ⟨?_, h.2⟩
      rw [h.1]
      exact ⟨Nat.not_succ_le_self _, Nat.le_refl _⟩
  · by_cases intact : t.shared.regs.magicValue = virtMagic
    · dsimp only
      rw [History.loop_intact intact]
      exact .inl (inv.intact intact q).2
    · apply loopStep_count intact action (by simpa [at_loop, Stage.Past] using inv.entries q)
      refine (t.history.loop_entries t.shared l.pc q).imp_right fun h => ⟨?_, h.2⟩
      obtain ⟨w, used_idx, at_pc, rfl⟩ := h.1
      rw [at_pc]
      exact ⟨Nat.not_succ_le_self _, Nat.le_refl _⟩

theorem storeStatus_inv (inv : ResetInv t) (value : U32) : ResetInv (t.storeStatus value) := by
  by_cases reset : value = 0
  · subst reset
    refine ⟨fun _ p granted => ?_, fun _ p since passed => ?_, inv.intact, inv.visits, inv.entries⟩
    · rw [grants_zero rfl] at granted
      cases granted
    · exact absurd passed (Nat.not_lt.mpr since)
  · simp only [Thread.storeStatus, reset, if_false]
    refine ⟨fun _ p granted => ?_, fun live p since passed => ?_, inv.intact, inv.visits,
      inv.entries⟩
    · dsimp only at granted ⊢
      rw [granted, Bool.or_true]
    · dsimp only
      rw [inv.behind live p since passed, Bool.true_or]

theorem guest_inv (inv : ResetInv t) (shared : Shared) : ResetInv (t.guest shared) := by
  unfold Thread.guest History.guest
  split
  · refine ⟨fun constructed p granted => ?_, inv.behind, fun _ _ => ⟨rfl, rfl⟩, fun _ => .inl rfl,
      fun _ => .inl rfl⟩
    exact inv.granted constructed p ((grants_status rfl p).symm.trans granted)
  · rename_i broken
    refine ⟨fun constructed p granted => ?_, inv.behind, fun intact => absurd intact broken,
      inv.visits, inv.entries⟩
    exact inv.granted constructed p ((grants_status rfl p).symm.trans granted)

theorem setExit_inv (inv : ResetInv t) : ResetInv { t with exit_thread_flag := true } :=
  ⟨inv.granted, fun live => inv.behind (.inr (live.resolve_left nofun)), inv.intact, inv.visits,
    inv.entries⟩

theorem device_inv {ready : Bool} {result : ρ} (inv : ResetInv t)
    (action : t.device dev c ready result = some t') : ResetInv t' := by
  cases device_cases action with
  | setup at_stage moved => exact setupStep_inv inv at_stage moved
  | enter at_stage finished =>
      have constructed : t.stage.Constructed := by simp [at_stage, Stage.Constructed]
      refine ⟨fun _ => inv.granted constructed, fun live p since passed => ?_, inv.intact,
        fun q => (inv.visits q).imp_right fun h => ⟨h.1, trivial⟩,
        fun q => (inv.entries q).imp_right fun h => ⟨h.1, trivial⟩⟩
      have running : t.exit_thread_flag = false := by
        apply live.resolve_right
        rintro ⟨l, same, not_first, -⟩
        cases same
        exact not_first rfl
      apply inv.behind (.inl running) p since
      simpa [at_stage, Stage.passed, finished, SetupPc.passed] using passed
  | loop at_stage running moved => exact loopStep_inv inv at_stage running moved
  | leave _ _ => exact inv.off id

theorem lifecycle_inv (reachable : (lifecycle dev c).Reachable t) : ResetInv t := by
  apply reachable.invariant
  · rintro t ⟨constructing, start⟩
    refine ⟨fun constructed => ?_, fun _ p _ passed => ?_, fun _ q => ?_, fun q => ?_, fun q => ?_⟩
    · simp [constructing, Stage.Constructed] at constructed
    · simp [constructing, Stage.passed] at passed
    · rw [start]
      exact ⟨rfl, rfl⟩
    · rw [start]
      exact .inl rfl
    · rw [start]
      exact .inl rfl
  · intro t t' label inv _ action
    cases label with
    | construct device => exact construct_inv inv action
    | device ready result => exact device_inv inv action
    | storeStatus value =>
        cases Option.some.inj action
        exact storeStatus_inv inv value
    | guest shared =>
        cases Option.some.inj action
        exact guest_inv inv shared
    | setExit =>
        cases Option.some.inj action
        exact setExit_inv inv

end Step
end

/-- All phases that were still to come at the last reset have been gone through since. -/
theorem reset_counts_for_rest {σ ρ : Type*} (dev : Device σ ρ) (c : Config) (t : Thread σ)
    (reachable : (lifecycle dev c).Reachable t) :
    (t.Touches → ∀ p, t.history.resetAt ≤ p.rank → t.history.done p = true) ∧
      ∀ q, t.history.visits q ≤ 1 ∧ t.history.entries q ≤ 1 := by
  have inv := lifecycle_inv reachable
  refine ⟨fun touches p since => ?_, fun q => ⟨?_, ?_⟩⟩
  · cases at_stage : t.stage with
    | loop l =>
        simp only [Thread.Touches, at_stage] at touches
        have live : t.Live := by
          refine .inr ⟨l, at_stage, ?_, ?_⟩
          all_goals
            intro at_pc
            simp [at_pc, LoopPc.touches] at touches
        apply inv.behind live p since
        rw [at_stage]
        exact p.rank_lt
    | _ => simp [Thread.Touches, at_stage] at touches
  · rcases inv.visits q with none | ⟨once, -⟩ <;> omega
  · rcases inv.entries q with none | ⟨once, -⟩ <;> omega

/-! ## A reset of a running device -/

def resetShared (avail_idx : U16) : Shared where
  regs := { Regs.constructed (virtioBlk 0 0 33) with selGeneration := 1 }
  interruptRegister := 0
  queues _ := ⟨fun _ => ⟨0x3000, 1, 2, 0⟩, ⟨avail_idx, fun _ => 0⟩, ⟨0, fun _ => ⟨0, 0⟩⟩⟩
  mem _ := 0

def threadStart : Thread Disk.VirtioBlk := ⟨.construct, resetShared 0, false, .start⟩

def threadSteps (n : Nat) : List (ThreadLabel Disk.VirtioBlk Unit) :=
  List.replicate n (.device true ())

def bringUp : List (ThreadLabel Disk.VirtioBlk Unit) :=
  [.construct ⟨0, fun _ => 0⟩, .storeStatus 2] ++ threadSteps 1 ++ [.storeStatus 10] ++
    threadSteps 3 ++ [.guest (resetShared 0)] ++ threadSteps 11 ++ [.storeStatus 14] ++
    threadSteps 5

theorem reset_counts_bring_up :
    ∃ t, (lifecycle (Disk.virtioBlkDevice 0) (virtioBlk 0 0 33)).run bringUp threadStart = some t ∧
      t.history.resetAt = 0 ∧ ∀ p, t.history.done p = true := by
  have run : ∃ t, (lifecycle (Disk.virtioBlkDevice 0) (virtioBlk 0 0 33)).run bringUp threadStart =
      some t ∧ t.Touches ∧ t.history.resetAt = 0 := ⟨_, rfl, rfl, rfl⟩
  obtain ⟨t, action, touches, first⟩ := run
  have initial : (lifecycle (Disk.virtioBlkDevice 0) (virtioBlk 0 0 33)).Reachable threadStart :=
    .start ⟨rfl, rfl⟩
  have counts := reset_counts_for_rest _ _ t (initial.run _ action)
  exact ⟨t, action, first, fun p => counts.1 touches p (first ▸ Nat.zero_le _)⟩

/-- After a reset the device goes on to enter a chain in the used ring. -/
theorem loop_ignores_reset :
    ¬∀ t, (lifecycle (Disk.virtioBlkDevice 0) (virtioBlk 0 0 33)).Reachable t → t.Touches →
      ∀ p, t.history.done p = true := by
  intro stopped
  have run : ∃ t, (lifecycle (Disk.virtioBlkDevice 0) (virtioBlk 0 0 33)).run
      (bringUp ++ [.storeStatus 0, .guest (resetShared 1)] ++ threadSteps 12) threadStart =
      some t ∧ t.Touches ∧ t.history.done .driver = false := ⟨_, rfl, rfl, rfl⟩
  obtain ⟨t, action, touches, not_again⟩ := run
  have initial : (lifecycle (Disk.virtioBlkDevice 0) (virtioBlk 0 0 33)).Reachable threadStart :=
    .start ⟨rfl, rfl⟩
  have again := stopped t (initial.run _ action) touches .driver
  rw [not_again] at again
  cases again

end TtBhLinux.Virtio
