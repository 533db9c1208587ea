import TtBhLinux.Common.Recorded
import TtBhLinux.Common.Sections
import TtBhLinux.Virtio.Process
import TtBhLinux.Virtio.Reset

/-!
# Interrupts of several devices

Beside the states of the threads stands what they have stored in the interrupt register, whose
pulses are complete and how many used entries each has made available.
-/

namespace TtBhLinux.Virtio
open Common System

structure Signals (ι : Type*) where
  stores : List (ι × U32)
  /-- The threads that have released the lock, in order. -/
  pulses : List ι
  entered : ι → Nat

def Signals.none {ι : Type*} : Signals ι := ⟨[], [], fun _ => 0⟩

def Stage.interruptStore {σ : Type*} (c : Config) : Stage σ → Option U32
  | .loop l => l.pc.interruptStore c
  | _ => Option.none

def LoopPc.enters : LoopPc → Nat
  | .storeUsedIdx _ _ => 1
  | _ => 0

def Stage.enters {σ : Type*} : Stage σ → Nat
  | .loop l => l.pc.enters
  | _ => 0

section
variable {ι : Type*} [DecidableEq ι] {σ ρ : ι → Type*}

def Signals.note (c : ι → Config) : ProcessLabel σ ρ → Process σ → Signals ι → Signals ι
  | .thread i (.device _ _), s, r =>
      let stage := (s.threads i).stage
      { r with
        stores := r.stores ++ (stage.interruptStore (c i)).toList.map fun a => (i, a)
        entered := Function.update r.entered i (r.entered i + stage.enters) }
  | .release i, _, r => { r with pulses := r.pulses ++ [i] }
  | _, _, r => r

end

/-! ## Signals and lock -/

section
variable {ι : Type*} [DecidableEq ι]

def pulse (c : ι → Config) (i : ι) : List U32 := [(c i).line, 0]

def Signal.emitted : Signal → Nat
  | .raise => 0
  | .lower => 1
  | .quiet | .due => 2

def current (signal : ι → Signal) (holder : Option ι) : Option (ι × Nat) :=
  holder.map fun i => (i, (signal i).emitted)

def raised (c : ι → Config) (signal : ι → Signal) (holder : Option ι) : U32 :=
  holder.elim 0 fun i => if signal i = .lower then (c i).line else 0

def owes (signal : ι → Signal) (holder : Option ι) (i : ι) : Nat :=
  if signal i ≠ .quiet ∨ holder = some i then 1 else 0

structure Signalled (c : ι → Config) (signal : ι → Signal) (holder : Option ι) (register : U32)
    (r : Signals ι) : Prop where
  sections : Sections (pulse c) r.pulses (current signal holder) r.stores
  register : r.stores ≠ [] → register = raised c signal holder
  entered : ∀ i, r.entered i = r.pulses.count i + owes signal holder i
  lower : ∀ i, signal i = .lower → holder = some i
  held : ∀ i, holder = some i → signal i ≠ .due

variable {c : ι → Config} {signal : ι → Signal} {holder : Option ι} {register : U32}
  {r : Signals ι} {i : ι}

theorem Signalled.unlocked (inv : Signalled c signal holder register r) (next : Signal) (n : Nat)
    (free : holder ≠ some i) (lower : next ≠ .lower)
    (counted : (if next ≠ .quiet then 1 else 0) = (if signal i ≠ .quiet then 1 else 0) + n) :
    Signalled c (Function.update signal i next) holder register
      { r with entered := Function.update r.entered i (r.entered i + n) } := by
  have kept : ∀ k, holder = some k → Function.update signal i next k = signal k := by
    intro k held
    apply Function.update_of_ne
    rintro rfl
    exact free held
  refine ⟨?_, fun stored => ?_, fun k => ?_, fun k lowers => ?_, fun k held => ?_⟩
  · cases holder with
    | none => exact inv.sections
    | some k => simpa [current, kept k rfl] using inv.sections
  · cases holder with
    | none => exact inv.register stored
    | some k => simpa [raised, kept k rfl] using inv.register stored
  · by_cases same : k = i
    · subst same
      simpa [owes, free, inv.entered, counted] using Nat.add_assoc _ _ _
    · simpa [owes, same] using inv.entered k
  · by_cases same : k = i
    · subst same
      simp [lower] at lowers
    · exact inv.lower k (by simpa [same] using lowers)
  · rw [kept k held]
    exact inv.held k held

theorem Signalled.raise (inv : Signalled c signal (some i) register r) (raises : signal i = .raise) :
    Signalled c (Function.update signal i .lower) (some i) (c i).line
      { r with stores := r.stores ++ [(i, (c i).line)] } := by
  refine ⟨?_, fun _ => ?_, fun k => ?_, fun k lowers => ?_, fun k held => ?_⟩
  · have sections := inv.sections
    simp only [current, Option.map_some, raises, Signal.emitted] at sections
    simpa [current, Signal.emitted] using sections.emit (a := (c i).line) rfl
  · simp [raised]
  · by_cases same : k = i
    · subst same
      simpa [owes] using inv.entered k
    · simpa [owes, same] using inv.entered k
  · by_cases same : k = i
    · rw [same]
    · exact inv.lower k (by simpa [same] using lowers)
  · cases held
    simp

theorem Signalled.lowered (inv : Signalled c signal (some i) register r)
    (lowers : signal i = .lower) :
    Signalled c (Function.update signal i .quiet) (some i) 0
      { r with stores := r.stores ++ [(i, 0)] } := by
  refine ⟨?_, fun _ => ?_, fun k => ?_, fun k lowers => ?_, fun k held => ?_⟩
  · have sections := inv.sections
    simp only [current, Option.map_some, lowers, Signal.emitted] at sections
    simpa [current, Signal.emitted] using sections.emit (a := 0) rfl
  · simp [raised]
  · by_cases same : k = i
    · subst same
      simpa [owes] using inv.entered k
    · simpa [owes, same] using inv.entered k
  · by_cases same : k = i
    · rw [same]
    · exact inv.lower k (by simpa [same] using lowers)
  · cases held
    simp

theorem Signalled.acquire (inv : Signalled c signal none register r) (raises : signal i = .raise) :
    Signalled c signal (some i) register r := by
  refine ⟨?_, fun stored => ?_, fun k => ?_, fun k lowers => ?_, fun k held => ?_⟩
  · simpa [current, raises, Signal.emitted] using inv.sections.enter i
  · simpa [raised, raises] using inv.register stored
  · by_cases same : i = k
    · subst same
      simpa [owes, raises] using inv.entered i
    · simpa [owes, same] using inv.entered k
  · cases inv.lower k lowers
  · cases held
    simp [raises]

theorem Signalled.release (inv : Signalled c signal (some i) register r)
    (unlocked : (signal i).locked = false) :
    Signalled c signal none register { r with pulses := r.pulses ++ [i] } := by
  have quiet : signal i = .quiet := by
    have due := inv.held i rfl
    cases h : signal i <;> simp_all [Signal.locked]
  refine ⟨?_, fun stored => ?_, fun k => ?_, fun k lowers => ?_, fun k held => ?_⟩
  · have sections := inv.sections
    simp only [current, Option.map_some, quiet, Signal.emitted] at sections
    exact sections.leave
  · simpa [raised, quiet] using inv.register stored
  · have entered := inv.entered k
    by_cases same : i = k
    · subst same
      simpa [owes, quiet] using entered
    · simpa [owes, same] using entered
  · obtain rfl := Option.some.inj (inv.lower k lowers)
    rw [quiet] at lowers
    cases lowers
  · cases held

end

/-! ## Steps of one thread -/

inductive SignalStep (c : Config) : Signal → Option U32 → Nat → Signal → Prop
  | quiet : SignalStep c .quiet none 0 .quiet
  | enter : SignalStep c .quiet none 1 .due
  | due : SignalStep c .due none 0 .due
  | claim : SignalStep c .due none 0 .raise
  | raise : SignalStep c .raise (some c.line) 0 .lower
  | lower : SignalStep c .lower (some 0) 0 .quiet

section Thread
variable {σ ρ : Type*} {dev : Device σ ρ} {c : Config}

theorem nextQueue_signal (q : Nat) : (c.nextQueue q).signal = .quiet := by
  unfold Config.nextQueue
  split <;> rfl

theorem loopStep_signal {a : Answer ρ} {loop loop' : Loop σ} {s s' : Shared}
    (action : loopStep dev c a loop s = some (loop', s')) :
    SignalStep c loop.pc.signal (loop.pc.interruptStore c) loop.pc.enters loop'.pc.signal := by
  unfold loopStep at action
  cases pc : loop.pc with
  | returned | fault f => simp [pc] at action
  | testExit | testMagic =>
      simp only [pc] at action
      obtain ⟨rfl, rfl⟩ := Prod.mk.inj (Option.some.inj action)
      dsimp only
      split <;> exact .quiet
  | loadAvailIdx q | queueHasData q =>
      simp only [pc] at action
      obtain ⟨rfl, rfl⟩ := Prod.mk.inj (Option.some.inj action)
      dsimp only
      split
      · exact .quiet
      · rw [nextQueue_signal]
        exact .quiet
  | process w l addr more =>
      simp only [pc] at action
      split at action <;> obtain ⟨rfl, rfl⟩ := Prod.mk.inj (Option.some.inj action)
      · exact .quiet
      · dsimp only
        split <;> exact .quiet
  | storeUsedIdx w used_idx =>
      simp only [pc] at action
      obtain ⟨rfl, rfl⟩ := Prod.mk.inj (Option.some.inj action)
      exact .enter
  | countProcessed q | loadInterruptStatus q =>
      simp only [pc] at action
      obtain ⟨rfl, rfl⟩ := Prod.mk.inj (Option.some.inj action)
      exact .due
  | storeInterruptStatus q val =>
      simp only [pc] at action
      obtain ⟨rfl, rfl⟩ := Prod.mk.inj (Option.some.inj action)
      exact .claim
  | raise q =>
      simp only [pc] at action
      obtain ⟨rfl, rfl⟩ := Prod.mk.inj (Option.some.inj action)
      exact .raise
  | lower q =>
      simp only [pc] at action
      obtain ⟨rfl, rfl⟩ := Prod.mk.inj (Option.some.inj action)
      rw [nextQueue_signal]
      exact .lower
  | _ =>
      simp only [pc] at action
      obtain ⟨rfl, rfl⟩ := Prod.mk.inj (Option.some.inj action)
      exact .quiet

theorem device_signal {ready : Bool} {result : ρ} {t t' : Thread σ}
    (action : t.device dev c ready result = some t') :
    SignalStep c t.stage.signal (t.stage.interruptStore c) t.stage.enters t'.stage.signal ∧
    t'.shared.interruptRegister =
      (t.stage.interruptStore c).getD t.shared.interruptRegister := by
  cases device_cases action with
  | setup at_stage moved | enter at_stage finished =>
      rw [at_stage]
      exact ⟨.quiet, rfl⟩
  | loop at_stage running moved =>
      rw [at_stage]
      exact ⟨loopStep_signal moved, loopStep_interruptRegister moved⟩
  | leave at_stage finished =>
      simp only [at_stage, Stage.signal, Stage.interruptStore, Stage.enters, finished]
      exact ⟨.quiet, rfl⟩

end Thread

/-! ## Steps of the process -/

section Process
variable {ι : Type*} [DecidableEq ι] {σ ρ : ι → Type*} {dev : ∀ i, Device (σ i) (ρ i)}
  {c : ι → Config} {s : Process σ} {r : Signals ι} {i : ι}

def Process.Signalled (c : ι → Config) (s : Process σ) (r : Signals ι) : Prop :=
  Virtio.Signalled c s.signal s.holder s.interruptRegister r

theorem signal_update (s : Process σ) (i : ι) (t : Thread (σ i)) (register : U32) :
    ({ s with threads := Function.update s.threads i t, interruptRegister := register } :
      Process σ).signal = Function.update s.signal i t.stage.signal := by
  funext k
  by_cases same : k = i
  · subst same
    simp [Process.signal]
  · simp [Process.signal, same]

theorem Process.Signalled.aside (inv : s.Signalled c r) {t : Thread (σ i)}
    (same : t.stage.signal = s.signal i) :
    Process.Signalled c { s with threads := Function.update s.threads i t } r := by
  have signal : ({ s with threads := Function.update s.threads i t } : Process σ).signal =
      s.signal := by
    rw [signal_update s i t s.interruptRegister, same, Function.update_eq_self]
  rw [Process.Signalled, signal]
  exact inv

theorem device_step_signalled {ready : Bool} {result : ρ i} {t : Thread (σ i)}
    (inv : s.Signalled c r) (may : (s.signal i).locked = decide (s.holder = some i))
    (action : ((s.threads i).seeing s.interruptRegister).device (dev i) (c i) ready result =
      some t) :
    Process.Signalled c { s with
      threads := Function.update s.threads i t
      interruptRegister := t.shared.interruptRegister }
      { r with
        stores := r.stores ++
          ((s.threads i).stage.interruptStore (c i)).toList.map fun a => (i, a)
        entered := Function.update r.entered i (r.entered i + (s.threads i).stage.enters) } := by
  obtain ⟨step, register⟩ := device_signal action
  have stage : ((s.threads i).seeing s.interruptRegister).stage = (s.threads i).stage := rfl
  have seen : ((s.threads i).seeing s.interruptRegister).shared.interruptRegister =
      s.interruptRegister := rfl
  have before : (s.threads i).stage.signal = s.signal i := rfl
  rw [stage] at step register
  rw [seen] at register
  rw [before] at step
  unfold Process.Signalled
  rw [signal_update, register]
  generalize (s.threads i).stage.interruptStore (c i) = store at step
  generalize (s.threads i).stage.enters = n at step
  generalize t.stage.signal = next at step
  generalize at_signal : s.signal i = signal at step may
  cases step with
  | quiet =>
      have free : s.holder ≠ some i := of_decide_eq_false may.symm
      simpa using inv.unlocked .quiet 0 free (by simp) (by simp [at_signal])
  | enter =>
      have free : s.holder ≠ some i := of_decide_eq_false may.symm
      simpa using inv.unlocked .due 1 free (by simp) (by simp [at_signal])
  | due =>
      have free : s.holder ≠ some i := of_decide_eq_false may.symm
      simpa using inv.unlocked .due 0 free (by simp) (by simp [at_signal])
  | claim =>
      have free : s.holder ≠ some i := of_decide_eq_false may.symm
      simpa using inv.unlocked .raise 0 free (by simp) (by simp [at_signal])
  | raise =>
      have held : s.holder = some i := of_decide_eq_true may.symm
      unfold Process.Signalled at inv
      rw [held] at inv ⊢
      simpa using inv.raise at_signal
  | lower =>
      have held : s.holder = some i := of_decide_eq_true may.symm
      unfold Process.Signalled at inv
      rw [held] at inv ⊢
      simpa using inv.lowered at_signal

theorem construct_signal {τ : Type*} {c : Config} {device : τ} {t t' : Thread τ}
    (action : t.construct c device = some t') : t'.stage.signal = t.stage.signal := by
  unfold Thread.construct at action
  split at action
  · rename_i at_stage
    rw [at_stage]
    split at action <;> cases action <;> rfl
  · cases action

theorem thread_step_signalled {label : ThreadLabel (σ i) (ρ i)} {t : Thread (σ i)}
    (inv : s.Signalled c r) (may : s.enabled i label = true)
    (action : (lifecycle (dev i) (c i)).step label ((s.threads i).seeing s.interruptRegister) =
      some t) :
    Process.Signalled c { s with
      threads := Function.update s.threads i t
      interruptRegister :=
        if label.isDevice then t.shared.interruptRegister else s.interruptRegister }
      (Signals.note c (.thread i label) s r) := by
  cases label with
  | device ready result => exact device_step_signalled inv (eq_of_beq may) action
  | construct device =>
      have same : t.stage.signal = _ := construct_signal action
      exact inv.aside same
  | storeStatus value | guest shared =>
      cases Option.some.inj action
      exact inv.aside rfl
  | setExit => cases may

theorem process_signalled
    (reachable : (process dev c).ReachableWith Signals.none (Signals.note c) (fun _ _ => True)
      (s, r)) : s.Signalled c r := by
  apply reachable.invariant (Process.Signalled c)
  · rintro s ⟨starting, free⟩
    have signal : s.signal = fun _ => .quiet := funext fun i => by
      rw [Process.signal, (starting i).1]
      rfl
    rw [Process.Signalled, signal, free]
    exact ⟨.empty, fun stored => absurd rfl stored, fun _ => rfl, by simp, by simp⟩
  · intro s t label r _ inv _ action
    cases label with
    | thread i label =>
        obtain ⟨may, action⟩ := Option.ite_none_right_eq_some.mp action
        obtain ⟨t, moved, rfl⟩ := Option.map_eq_some_iff.mp action
        exact thread_step_signalled inv may moved
    | acquire i =>
        obtain ⟨⟨free, raises⟩, eq⟩ := Option.ite_none_right_eq_some.mp action
        cases eq
        rw [Process.Signalled, free] at inv
        exact inv.acquire raises
    | release i =>
        obtain ⟨⟨held, unlocked⟩, eq⟩ := Option.ite_none_right_eq_some.mp action
        cases eq
        rw [Process.Signalled, held] at inv
        exact inv.release unlocked
    | setExit =>
        cases action
        exact inv

abbrev signalling (dev : ∀ i, Device (σ i) (ρ i)) (c : ι → Config) :
    System (Process σ × Signals ι) (ProcessLabel σ ρ) :=
  (process dev c).recorded Signals.none (Signals.note c)

/-- Each used entry is followed by one pulse of the line of its device, and no two pulses mix. -/
theorem interrupts_one_at_a_time (dev : ∀ i, Device (σ i) (ρ i)) (c : ι → Config) (s : Process σ)
    (r : Signals ι) (reachable : (signalling dev c).Reachable (s, r)) : s.Signalled c r :=
  process_signalled reachable

end Process

/-! ## Two disks -/

def diskLines (cloud : Bool) : Config := virtioBlk 0 0 (bif cloud then 31 else 33)

def twoDisks : Process fun _ : Bool => Disk.VirtioBlk := ⟨fun _ => threadStart, none, 0⟩

abbrev DiskLabel := ProcessLabel (fun _ : Bool => Disk.VirtioBlk) fun _ => Unit

def diskSteps (i : Bool) (n : Nat) : List DiskLabel := List.replicate n (.thread i (.device true ()))

def diskBringUp (i : Bool) : List DiskLabel :=
  (bringUp ++ [ThreadLabel.guest (resetShared 1)]).map (.thread i) ++ diskSteps i 16

def disksRaise : List DiskLabel :=
  diskBringUp false ++ diskBringUp true ++
    [.acquire false] ++ diskSteps false 2 ++ [.release false, .acquire true] ++ diskSteps true 1

theorem interrupts_of_two_disks :
    ∃ s r, (signalling (fun _ => Disk.virtioBlkDevice 0) diskLines).run disksRaise
        (twoDisks, Signals.none) = some (s, r) ∧
      r.stores = [(false, 0x10000000), (false, 0), (true, 0x4000000)] ∧
      s.Signalled diskLines r := by
  have run : ∃ s r, (signalling (fun _ => Disk.virtioBlkDevice 0) diskLines).run disksRaise
      (twoDisks, Signals.none) = some (s, r) ∧
      r.stores = [(false, 0x10000000), (false, 0), (true, 0x4000000)] := ⟨_, _, rfl, rfl⟩
  obtain ⟨s, r, action, stores⟩ := run
  have initial : (signalling (fun _ => Disk.virtioBlkDevice 0) diskLines).Reachable
      (twoDisks, Signals.none) := .start ⟨⟨fun _ => ⟨rfl, rfl⟩, rfl⟩, rfl⟩
  exact ⟨s, r, action, stores, interrupts_one_at_a_time _ _ s r (initial.run _ action)⟩

end TtBhLinux.Virtio
