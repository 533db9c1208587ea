import Mathlib.Algebra.BigOperators.Group.Finset.Basic
import Mathlib.Algebra.Order.BigOperators.Group.Finset
import TtBhLinux.Virtio.Interrupts

/-!
# The end of the threads

Once `exit_thread_flag` is set, every step of a thread brings it closer to its end, unless it walks
over the descriptors of a chain.
-/

namespace TtBhLinux.Virtio
open Common System

/-! ## Ranks -/

def LoopPc.walks : LoopPc → Bool
  | .loadLen _ | .loadAddr _ _ | .loadFlags _ _ _ | .process _ _ _ _ | .loadNext _ => true
  | _ => false

def queueRank (numQueues q : Nat) : Nat := 3 + 20 * (numQueues - (q + 1) + 1)

def LoopPc.rank (n : Nat) : LoopPc → Nat
  | .testExit => 3
  | .testMagic => queueRank n 0 + 2
  | .ackInterrupt => queueRank n 0 + 1
  | .loadAvailIdx q => queueRank n q
  | .queueHasData q => queueRank n q - 1
  | .loadHead q => queueRank n q - 2
  | .peekLen w => queueRank n w.queue_idx - 3
  | .peekAddr w => queueRank n w.queue_idx - 4
  | .loadLen w | .loadAddr w _ | .loadFlags w _ _ | .process w _ _ _ | .loadNext w =>
      queueRank n w.queue_idx - 5
  | .loadUsedIdx w => queueRank n w.queue_idx - 6
  | .storeId w _ => queueRank n w.queue_idx - 7
  | .storeLen w _ => queueRank n w.queue_idx - 8
  | .storeUsedIdx w _ => queueRank n w.queue_idx - 9
  | .countProcessed q => queueRank n q - 10
  | .loadInterruptStatus q => queueRank n q - 11
  | .storeInterruptStatus q _ => queueRank n q - 12
  | .raise q => queueRank n q - 14
  | .lower q => queueRank n q - 15
  | .returned => 2
  | .fault _ => 0

def SetupPc.rank : SetupPc → Nat
  | .featDeviceSel => 15
  | .featDevice _ => 14
  | .featDriverSel => 13
  | .featDriver _ => 12
  | .featAck => 11
  | .featStatus | .waitDriver => 10
  | .featGen => 9
  | .resize => 8
  | .queueReady => 16
  | .queueSelect => 15
  | .queueHigh .desc _ => 14
  | .queueLow .desc _ _ => 13
  | .queueHigh .avail _ => 12
  | .queueLow .avail _ _ => 11
  | .queueHigh .used _ => 10
  | .queueLow .used _ _ => 9
  | .queueAck _ => 8
  | .queueGen => 7
  | .pointers => 6
  | .waitDriverOk => 5
  | .returned => 4
  | .fault _ _ => 0

def Stage.rank {σ : Type*} (n : Nat) : Stage σ → Nat
  | .setup s _ => s.pc.rank
  | .loop l => l.pc.rank n
  | .construct => 1
  | .ended => 0

def Stage.walks {σ : Type*} : Stage σ → Bool
  | .loop l => l.pc.walks
  | _ => false

def Signal.lockRank (held : Bool) : Signal → Nat
  | .raise => if held then 0 else 1
  | .lower => 0
  | .quiet | .due => if held then 1 else 0

section Thread
variable {σ ρ : Type*} {dev : Device σ ρ} {c : Config}

theorem setupStep_rank {s s' : Setup} {r r' : Regs} (action : setupStep c true s r = some (s', r')) :
    s'.pc.rank + 1 ≤ s.pc.rank := by
  unfold setupStep at action
  cases pc : s.pc with
  | queueHigh area q =>
      simp only [pc] at action
      obtain ⟨rfl, rfl⟩ := Prod.mk.inj (Option.some.inj action)
      cases area <;> simp [SetupPc.rank]
  | queueLow area q high =>
      simp only [pc] at action
      split at action <;> obtain ⟨rfl, rfl⟩ := Prod.mk.inj (Option.some.inj action)
      · cases area <;> simp [SetupPc.rank, Area.next]
      · cases area <;> simp [SetupPc.rank]
  | returned | fault array index => simp [pc] at action
  | featDeviceSel | featDriverSel | featStatus | queueReady | queueAck q =>
      simp only [pc] at action
      obtain ⟨rfl, rfl⟩ := Prod.mk.inj (Option.some.inj action)
      dsimp only
      split <;> simp [SetupPc.rank]
  | _ =>
      simp only [pc, Bool.true_or, if_true] at action
      obtain ⟨rfl, rfl⟩ := Prod.mk.inj (Option.some.inj action)
      simp [SetupPc.rank]

theorem queueRank_le (n q : Nat) : 23 ≤ queueRank n q := by
  unfold queueRank
  omega

theorem nextQueue_rank (q : Nat) :
    (c.nextQueue q).rank c.numQueues.toNat + 20 ≤ queueRank c.numQueues.toNat q := by
  unfold Config.nextQueue
  split
  · simp only [LoopPc.rank, queueRank]
    omega
  · exact queueRank_le _ _

theorem nextQueue_falls (q : Nat) (held : Bool) {k : Nat} (le : k ≤ 15) :
    (c.nextQueue q).rank c.numQueues.toNat + (c.nextQueue q).signal.lockRank held + 1 ≤
      queueRank c.numQueues.toNat q - k := by
  have next := nextQueue_rank (c := c) q
  have lock : (c.nextQueue q).signal.lockRank held ≤ 1 := by
    rw [nextQueue_signal]
    cases held <;> simp [Signal.lockRank]
  omega

theorem loopStep_rank {ready : Bool} {result : ρ} {loop loop' : Loop σ} {s s' : Shared}
    (action : loopStep dev c ⟨true, ready, result⟩ loop s = some (loop', s')) :
    loop'.pc.rank c.numQueues.toNat + loop'.pc.signal.lockRank loop.pc.signal.locked +
      (if loop.pc.walks then 0 else 1) ≤ loop.pc.rank c.numQueues.toNat := by
  have left := queueRank_le c.numQueues.toNat
  unfold loopStep at action
  cases pc : loop.pc with
  | returned | fault f => simp [pc] at action
  | testExit =>
      simp only [pc, if_true] at action
      obtain ⟨rfl, rfl⟩ := Prod.mk.inj (Option.some.inj action)
      simp [LoopPc.rank, LoopPc.signal, Signal.lockRank, LoopPc.walks, Signal.locked]
  | loadAvailIdx q =>
      have := left q
      simp only [pc] at action
      obtain ⟨rfl, rfl⟩ := Prod.mk.inj (Option.some.inj action)
      dsimp only
      split
      · simp only [LoopPc.rank, LoopPc.signal, Signal.lockRank, LoopPc.walks, Signal.locked,
          Bool.false_eq_true, if_false]
        omega
      · exact nextQueue_falls (k := 0) q _ (Nat.zero_le _)
  | queueHasData q =>
      have := left q
      simp only [pc] at action
      obtain ⟨rfl, rfl⟩ := Prod.mk.inj (Option.some.inj action)
      dsimp only
      split
      · simp only [LoopPc.rank, LoopPc.signal, Signal.lockRank, LoopPc.walks, Signal.locked,
          Bool.false_eq_true, if_false]
        omega
      · exact nextQueue_falls (k := 1) q _ (by decide)
  | lower q =>
      simp only [pc] at action
      obtain ⟨rfl, rfl⟩ := Prod.mk.inj (Option.some.inj action)
      exact nextQueue_falls q _ le_rfl
  | process w l addr more =>
      have := left w.queue_idx
      simp only [pc] at action
      split at action <;> obtain ⟨rfl, rfl⟩ := Prod.mk.inj (Option.some.inj action)
      · simp [LoopPc.rank, LoopPc.signal, Signal.lockRank, LoopPc.walks, Signal.locked]
      · cases more <;>
          simp [LoopPc.rank, LoopPc.signal, Signal.lockRank, LoopPc.walks, Signal.locked]
        omega
  | testMagic =>
      have := left 0
      simp only [pc] at action
      obtain ⟨rfl, rfl⟩ := Prod.mk.inj (Option.some.inj action)
      dsimp only
      split <;> simp [LoopPc.rank, LoopPc.signal, Signal.lockRank, LoopPc.walks, Signal.locked]
      omega
  | ackInterrupt =>
      simp only [pc] at action
      obtain ⟨rfl, rfl⟩ := Prod.mk.inj (Option.some.inj action)
      exact le_rfl
  | loadHead q | countProcessed q | loadInterruptStatus q | storeInterruptStatus q val | raise q =>
      have := left q
      simp only [pc] at action
      obtain ⟨rfl, rfl⟩ := Prod.mk.inj (Option.some.inj action)
      simp only [LoopPc.rank, LoopPc.signal, Signal.lockRank, LoopPc.walks, Signal.locked,
        Bool.false_eq_true, if_false]
      omega
  | peekLen w | peekAddr w | loadLen w | loadAddr w l | loadFlags w l addr | loadNext w
  | loadUsedIdx w | storeId w used_idx | storeLen w used_idx | storeUsedIdx w used_idx =>
      have := left w.queue_idx
      simp only [pc] at action
      obtain ⟨rfl, rfl⟩ := Prod.mk.inj (Option.some.inj action)
      simp only [LoopPc.rank, LoopPc.signal, Signal.lockRank, LoopPc.walks, Signal.locked,
        Bool.false_eq_true, if_false, if_true]
      omega

theorem device_rank {ready : Bool} {result : ρ} {t t' : Thread σ} (exit : t.exit_thread_flag = true)
    (action : t.device dev c ready result = some t') :
    t'.stage.rank c.numQueues.toNat + t'.stage.signal.lockRank t.stage.signal.locked +
      (if t.stage.walks then 0 else 1) ≤ t.stage.rank c.numQueues.toNat ∧
    t'.exit_thread_flag = true := by
  cases device_cases action with
  | setup at_stage moved =>
      rw [exit] at moved
      rw [at_stage]
      exact ⟨setupStep_rank moved, exit⟩
  | enter at_stage finished =>
      simp [at_stage, Stage.rank, finished, SetupPc.rank, LoopPc.rank, Stage.signal, LoopPc.signal,
        Signal.locked, Signal.lockRank, Stage.walks, exit]
  | loop at_stage running moved =>
      rw [exit] at moved
      rw [at_stage]
      exact ⟨loopStep_rank moved, exit⟩
  | leave at_stage finished =>
      simp [at_stage, Stage.rank, finished, LoopPc.rank, Stage.signal, LoopPc.signal,
        Signal.locked, Signal.lockRank, Stage.walks, LoopPc.walks, exit]

theorem construct_rank {device : σ} {t t' : Thread σ} (n : Nat) (exit : t.exit_thread_flag = true)
    (action : t.construct c device = some t') :
    t'.stage.rank n + 1 ≤ t.stage.rank n ∧ t'.exit_thread_flag = true := by
  unfold Thread.construct at action
  split at action
  · rename_i at_stage
    rw [if_pos exit] at action
    cases action
    rw [at_stage]
    exact ⟨le_rfl, exit⟩
  · cases action

theorem LoopPc.rank_le (pc : LoopPc) : pc.rank c.numQueues.toNat ≤ 5 + 20 * c.numQueues.toNat := by
  have positive : 0 < c.numQueues.toNat := c.numQueues_pos
  have bound : ∀ q, queueRank c.numQueues.toNat q ≤ 3 + 20 * c.numQueues.toNat := by
    intro q
    unfold queueRank
    omega
  cases pc with
  | loadAvailIdx q | queueHasData q | loadHead q | countProcessed q | loadInterruptStatus q
  | storeInterruptStatus q val | raise q | lower q =>
      have := bound q
      simp only [rank]
      omega
  | peekLen w | peekAddr w | loadLen w | loadAddr w l | loadFlags w l addr | process w l addr more
  | loadNext w | loadUsedIdx w | storeId w used_idx | storeLen w used_idx
  | storeUsedIdx w used_idx =>
      have := bound w.queue_idx
      simp only [rank]
      omega
  | testMagic | ackInterrupt =>
      have := bound 0
      simp only [rank]
      omega
  | testExit | returned | fault f =>
      simp only [rank]
      omega

theorem SetupPc.rank_le (pc : SetupPc) : pc.rank ≤ 16 := by
  cases pc with
  | queueHigh area q | queueLow area q high => cases area <;> simp [rank]
  | _ => simp [rank]

theorem Stage.rank_le (stage : Stage σ) :
    stage.rank c.numQueues.toNat ≤ 5 + 20 * c.numQueues.toNat := by
  have positive : 0 < c.numQueues.toNat := c.numQueues_pos
  cases stage with
  | construct | ended =>
      simp only [rank]
      omega
  | setup s device =>
      have := s.pc.rank_le
      simp only [rank]
      omega
  | loop l => exact l.pc.rank_le

theorem Signal.lockRank_le (held : Bool) (signal : Signal) : signal.lockRank held ≤ 1 := by
  cases signal <;> cases held <;> decide

/-! ## Threads that can go on -/

def Stage.stopped : Stage σ → Bool
  | .loop l => match l.pc with
    | .fault _ => true
    | _ => false
  | .setup s _ => match s.pc with
    | .fault _ _ => true
    | _ => false
  | .ended => true
  | .construct => false

theorem setupStep_moves {exit : Bool} {s : Setup} {r : Regs} {device : σ}
    (running : (Stage.setup s device).stopped = false) (more : s.pc ≠ .returned) :
    (setupStep c exit s r).isSome := by
  unfold setupStep
  cases pc : s.pc with
  | returned => exact absurd pc more
  | fault array index => simp [Stage.stopped, pc] at running
  | featGen | queueGen => cases exit <;> rfl
  | queueLow area q high =>
      dsimp only
      split <;> rfl
  | _ => rfl

theorem loopStep_moves {a : Answer ρ} {loop : Loop σ} {s : Shared}
    (running : (Stage.loop loop).stopped = false) (more : loop.pc ≠ .returned) :
    (loopStep dev c a loop s).isSome := by
  unfold loopStep
  cases pc : loop.pc with
  | returned => exact absurd pc more
  | fault f => simp [Stage.stopped, pc] at running
  | process w l addr more =>
      dsimp only
      split <;> rfl
  | _ => rfl

theorem device_moves {t : Thread σ} (ready : Bool) (result : ρ)
    (running : t.stage.stopped = false) (constructed : t.stage ≠ .construct) :
    (t.device dev c ready result).isSome := by
  unfold Thread.device
  cases at_stage : t.stage with
  | construct => exact absurd at_stage constructed
  | ended => simp [at_stage, Stage.stopped] at running
  | setup s device =>
      rw [at_stage] at running
      by_cases finished : s.pc = .returned
      · simp [finished]
      · simpa [finished] using setupStep_moves running finished
  | loop l =>
      rw [at_stage] at running
      by_cases finished : l.pc = .returned
      · simp [finished]
      · simpa [finished] using loopStep_moves running finished

theorem construct_moves {t : Thread σ} (device : σ) (constructed : t.stage = .construct) :
    (t.construct c device).isSome := by
  unfold Thread.construct
  simp only [constructed]
  split <;> rfl

theorem Stage.running_of_locked {stage : Stage σ} (locked : stage.signal.locked = true) :
    stage.stopped = false ∧ stage ≠ .construct := by
  cases stage with
  | loop l =>
      refine ⟨?_, by simp⟩
      cases pc : l.pc <;> simp_all [signal, LoopPc.signal, Signal.locked, stopped]
  | _ => cases locked

end Thread

/-! ## The process -/

section Process
variable {ι : Type*} [DecidableEq ι] {σ ρ : ι → Type*} {dev : ∀ i, Device (σ i) (ρ i)}
  {c : ι → Config} {s t : Process σ} {i : ι}

def ProcessLabel.own : ProcessLabel σ ρ → Bool
  | .thread _ (.device _ _) | .thread _ (.construct _) | .acquire _ | .release _ => true
  | _ => false

def Process.settles (s : Process σ) : ProcessLabel σ ρ → Bool
  | .thread i (.device _ _) => !(s.threads i).stage.walks
  | label => label.own

theorem thread_moves {label : ThreadLabel (σ i) (ρ i)} (may : s.enabled i label = true)
    (moves : ((lifecycle (dev i) (c i)).step label
      ((s.threads i).seeing s.interruptRegister)).isSome) :
    ((process dev c).step (.thread i label) s).isSome := by
  unfold process
  simp only
  rw [if_pos may, Option.isSome_map]
  exact moves

theorem process_moves {r : Signals ι} (device : ∀ i, σ i) (result : ∀ i, ρ i)
    (inv : s.Signalled c r) (running : (s.threads i).stage.stopped = false) :
    ∃ label, ProcessLabel.own label = true ∧ ((process dev c).step label s).isSome := by
  have goes : ∀ k, (s.threads k).stage.stopped = false → (s.threads k).stage ≠ .construct →
      (s.signal k).locked = decide (s.holder = some k) →
      ((process dev c).step (.thread k (.device true (result k))) s).isSome := by
    intro k running constructed may
    exact thread_moves (beq_iff_eq.mpr may) (device_moves true (result k) running constructed)
  cases held : s.holder with
  | some k =>
      cases locked : (s.signal k).locked with
      | true =>
          obtain ⟨running, constructed⟩ := Stage.running_of_locked locked
          refine ⟨.thread k (.device true (result k)), rfl, goes k running constructed ?_⟩
          simp [locked, held]
      | false => exact ⟨.release k, rfl, by simp [process, held, locked]⟩
  | none =>
      cases signal : s.signal i with
      | raise => exact ⟨.acquire i, rfl, by simp [process, held, signal]⟩
      | lower => exact absurd (inv.lower i signal) (by simp [held])
      | quiet | due =>
          by_cases constructed : (s.threads i).stage = .construct
          · exact ⟨.thread i (.construct (device i)), rfl,
              thread_moves rfl (construct_moves (device i) constructed)⟩
          · refine ⟨.thread i (.device true (result i)), rfl, goes i running constructed ?_⟩
            rw [signal, held]
            rfl

variable [Fintype ι]

def Process.rank (c : ι → Config) (s : Process σ) : Nat :=
  ∑ i, ((s.threads i).stage.rank (c i).numQueues.toNat +
    (s.signal i).lockRank (decide (s.holder = some i)))

omit [DecidableEq ι] in
theorem sum_falls {f g : ι → Nat} {d : Nat} (i : ι) (own : g i + d ≤ f i)
    (others : ∀ k ≠ i, g k = f k) : ∑ k, g k + d ≤ ∑ k, f k := by
  classical
  have rest : ∑ k ∈ Finset.univ.erase i, g k = ∑ k ∈ Finset.univ.erase i, f k :=
    Finset.sum_congr rfl fun k member => others k (Finset.ne_of_mem_erase member)
  rw [← Finset.add_sum_erase _ g (Finset.mem_univ i), ← Finset.add_sum_erase _ f (Finset.mem_univ i),
    rest]
  omega

theorem Process.rank_le (s : Process σ) :
    s.rank c ≤ ∑ i, (6 + 20 * (c i).numQueues.toNat) := by
  apply Finset.sum_le_sum
  intro i _
  have stage := (s.threads i).stage.rank_le (c := c i)
  have lock := (s.signal i).lockRank_le (decide (s.holder = some i))
  omega

def Process.Exiting (s : Process σ) : Prop := ∀ i, (s.threads i).exit_thread_flag = true

instance (s : Process σ) : Decidable s.Exiting :=
  inferInstanceAs (Decidable (∀ i, (s.threads i).exit_thread_flag = true))

theorem thread_step_rank {label : ThreadLabel (σ i) (ρ i)} {u : Thread (σ i)} {register : U32}
    (exiting : s.Exiting) (may : s.enabled i label = true)
    (action : (lifecycle (dev i) (c i)).step label ((s.threads i).seeing s.interruptRegister) =
      some u) :
    let t : Process σ := { s with
      threads := Function.update s.threads i u, interruptRegister := register }
    t.rank c + (if s.settles (.thread i label : ProcessLabel σ ρ) then 1 else 0) ≤ s.rank c ∧
      t.Exiting := by
  intro t
  have signal : t.signal = Function.update s.signal i u.stage.signal := signal_update s i u register
  have other : ∀ k ≠ i, t.threads k = s.threads k ∧ t.signal k = s.signal k := fun k ne =>
    ⟨Function.update_of_ne ne _ _, by rw [signal, Function.update_of_ne ne]⟩
  have own : t.threads i = u ∧ t.signal i = u.stage.signal :=
    ⟨Function.update_self _ _ _, by rw [signal, Function.update_self]⟩
  have falls : ∀ d, u.stage.rank (c i).numQueues.toNat +
      u.stage.signal.lockRank (decide (s.holder = some i)) + d ≤
      (s.threads i).stage.rank (c i).numQueues.toNat +
        (s.signal i).lockRank (decide (s.holder = some i)) → t.rank c + d ≤ s.rank c := by
    intro d le
    apply sum_falls i
    · rw [own.1, own.2]
      exact le
    · intro k ne
      rw [(other k ne).1, (other k ne).2]
  have exits : u.exit_thread_flag = true → t.Exiting := by
    intro exit k
    by_cases same : k = i
    · rw [same, own.1]
      exact exit
    · rw [(other k same).1]
      exact exiting k
  have exiting_now : ((s.threads i).seeing s.interruptRegister).exit_thread_flag = true :=
    exiting i
  cases label with
  | device ready result =>
      have held : (s.signal i).locked = decide (s.holder = some i) := eq_of_beq may
      obtain ⟨rank, exit⟩ := device_rank exiting_now action
      refine ⟨falls _ ?_, exits exit⟩
      have settles : s.settles (.thread i (.device ready result) : ProcessLabel σ ρ) =
          !(s.threads i).stage.walks := rfl
      have walks : (if !(s.threads i).stage.walks then 1 else 0) =
          if (s.threads i).stage.walks then 0 else 1 := by
        cases (s.threads i).stage.walks <;> rfl
      rw [← held, settles, walks]
      exact rank.trans (Nat.le_add_right _ _)
  | construct device =>
      obtain ⟨rank, exit⟩ := construct_rank (c i).numQueues.toNat exiting_now action
      have kept := construct_signal action
      have same : u.stage.signal = s.signal i := kept
      refine ⟨falls 1 ?_, exits exit⟩
      rw [same, Nat.add_right_comm]
      exact Nat.add_le_add_right rank _
  | storeStatus value | guest shared =>
      cases Option.some.inj action
      exact ⟨falls 0 le_rfl, exits (exiting i)⟩
  | setExit => cases may

theorem process_step_rank {label : ProcessLabel σ ρ} (exiting : s.Exiting)
    (action : (process dev c).step label s = some t) :
    t.rank c + (if s.settles label then 1 else 0) ≤ s.rank c ∧ t.Exiting := by
  cases label with
  | thread i label =>
      obtain ⟨may, action⟩ := Option.ite_none_right_eq_some.mp action
      obtain ⟨u, moved, rfl⟩ := Option.map_eq_some_iff.mp action
      exact thread_step_rank exiting may moved
  | acquire i =>
      obtain ⟨⟨free, raises⟩, eq⟩ := Option.ite_none_right_eq_some.mp action
      cases eq
      refine ⟨sum_falls i ?_ fun k ne => ?_, exiting⟩
      · simp only [Process.signal] at raises ⊢
        simp [raises, free, Signal.lockRank, Process.settles, ProcessLabel.own]
      · simp [Process.signal, free, ne.symm]
  | release i =>
      obtain ⟨⟨held, unlocked⟩, eq⟩ := Option.ite_none_right_eq_some.mp action
      cases eq
      refine ⟨sum_falls i ?_ fun k ne => ?_, exiting⟩
      · simp only [Process.signal] at unlocked ⊢
        cases signal : (s.threads i).stage.signal <;>
          simp_all [Signal.lockRank, Signal.locked, Process.settles, ProcessLabel.own]
      · simp [Process.signal, held, ne.symm]
  | setExit =>
      cases action
      exact ⟨le_rfl, fun _ => rfl⟩

/-- Beside the process stands how many steps have brought it closer to its end since the flag was
set. -/
def Process.count (label : ProcessLabel σ ρ) (s : Process σ) (n : Nat) : Nat :=
  if s.Exiting ∧ s.settles label then n + 1 else n

abbrev ending (dev : ∀ i, Device (σ i) (ρ i)) (c : ι → Config) :
    System (Process σ × Nat) (ProcessLabel σ ρ) :=
  (process dev c).recorded 0 Process.count

theorem ending_rank {n : Nat}
    (reachable : (process dev c).ReachableWith 0 Process.count (fun _ _ => True) (s, n)) :
    (s.Exiting → n + s.rank c ≤ ∑ i, (6 + 20 * (c i).numQueues.toNat)) ∧
      (¬s.Exiting → n = 0) := by
  apply reachable.invariant fun (s : Process σ) n =>
    (s.Exiting → n + s.rank c ≤ ∑ i, (6 + 20 * (c i).numQueues.toNat)) ∧ (¬s.Exiting → n = 0)
  · exact fun s _ => ⟨fun _ => by simpa using s.rank_le, fun _ => rfl⟩
  · intro s t label n _ inv _ action
    by_cases exiting : s.Exiting
    · obtain ⟨rank, exits⟩ := process_step_rank exiting action
      have bound := inv.1 exiting
      refine ⟨fun _ => ?_, fun runs => absurd exits runs⟩
      simp only [Process.count, exiting, true_and]
      split <;> simp_all <;> omega
    · simp only [Process.count, exiting, false_and, if_false, inv.2 exiting]
      exact ⟨fun _ => by simpa using t.rank_le, fun _ => trivial⟩

theorem threads_end (dev : ∀ i, Device (σ i) (ρ i)) (c : ι → Config) (device : ∀ i, σ i)
    (result : ∀ i, ρ i) (s : Process σ) (n : Nat) (reachable : (ending dev c).Reachable (s, n)) :
    n ≤ ∑ i, (6 + 20 * (c i).numQueues.toNat) ∧
    ((∃ i, (s.threads i).stage.stopped = false) →
      ∃ label, ProcessLabel.own label = true ∧ ((process dev c).step label s).isSome) := by
  have recorded : (process dev c).ReachableWith 0 Process.count (fun _ _ => True) (s, n) :=
    reachable
  obtain ⟨bound, before⟩ := ending_rank recorded
  refine ⟨?_, fun ⟨i, running⟩ => ?_⟩
  · by_cases exiting : s.Exiting
    · exact (Nat.le_add_right _ _).trans (bound exiting)
    · rw [before exiting]
      exact Nat.zero_le _
  · obtain ⟨r, signals⟩ := recorded.state.recorded Signals.none (Signals.note c)
    exact process_moves device result (process_signalled signals) running

end Process

def disksEnd : List DiskLabel :=
  [.setExit] ++ diskSteps true 1 ++ [.release true] ++ diskSteps true 2 ++ diskSteps false 2 ++
    [.thread true (.construct ⟨0, fun _ => 0⟩), .thread false (.construct ⟨0, fun _ => 0⟩)]

set_option maxRecDepth 2000 in
theorem two_disks_end :
    ∃ s n, (ending (fun _ => Disk.virtioBlkDevice 0) diskLines).run (disksRaise ++ disksEnd)
        (twoDisks, 0) = some (s, n) ∧
      n = 8 ∧ (∀ i, (s.threads i).stage.stopped = true) ∧
      n ≤ ∑ i, (6 + 20 * (diskLines i).numQueues.toNat) := by
  have run : ∃ s n, (ending (fun _ => Disk.virtioBlkDevice 0) diskLines).run
      (disksRaise ++ disksEnd) (twoDisks, 0) = some (s, n) ∧
      n = 8 ∧ (s.threads false).stage.stopped = true ∧ (s.threads true).stage.stopped = true :=
    ⟨_, _, rfl, rfl, rfl, rfl⟩
  obtain ⟨s, n, action, count, first, second⟩ := run
  have initial : (ending (fun _ => Disk.virtioBlkDevice 0) diskLines).Reachable (twoDisks, 0) :=
    .start ⟨⟨fun _ => ⟨rfl, rfl⟩, rfl⟩, rfl⟩
  have ends := threads_end _ _ (fun _ => ⟨0, fun _ => 0⟩) (fun _ => ()) s n (initial.run _ action)
  refine ⟨s, n, action, count, fun i => ?_, ends.1⟩
  cases i with
  | false => exact first
  | true => exact second

end TtBhLinux.Virtio
