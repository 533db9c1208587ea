import TtBhLinux.Common.System
import TtBhLinux.Virtio.Loop
import TtBhLinux.Virtio.Setup

/-!
# disk_main and network_main

A thread constructs its device, runs `device_setup` and `device_loop` and starts over.
-/

namespace TtBhLinux.Virtio
open Common

inductive Phase
  | driver
  | featuresOk
  | queues
  | driverOk
  deriving DecidableEq

def Phase.rank : Phase → Nat
  | .driver => 0
  | .featuresOk => 1
  | .queues => 2
  | .driverOk => 3

def Phase.bit : Phase → Option U32
  | .driver => some statusDriver
  | .featuresOk => some statusFeaturesOk
  | .queues => none
  | .driverOk => some statusDriverOk

def Regs.grants (r : Regs) (p : Phase) : Bool := p.bit.any r.hasStatus

def SetupPc.passed : SetupPc → Nat
  | .waitDriver => 0
  | .featGen | .featDeviceSel | .featDevice _ | .featDriverSel | .featDriver _ | .featAck
  | .featStatus => 1
  | .resize | .queueGen | .queueReady | .queueSelect | .queueHigh _ _ | .queueLow _ _ _
  | .queueAck _ => 2
  | .pointers | .waitDriverOk => 3
  | .returned => 4
  | .fault _ _ => 0

inductive Stage (σ : Type*)
  | construct
  | setup (state : Setup) (device : σ)
  | loop (state : Loop σ)
  | ended

def Stage.passed {σ : Type*} : Stage σ → Nat
  | .setup state _ => state.pc.passed
  | .loop _ => 4
  | .construct | .ended => 0

structure History where
  /-- The phases that the device had behind it when 0 was last stored to status. -/
  resetAt : Nat
  done : Phase → Bool
  /-- The visits of each queue since `magic_value` was last right, and the used entries. -/
  visits : Nat → Nat
  entries : Nat → Nat

def History.start : History := ⟨0, fun _ => false, fun _ => 0, fun _ => 0⟩

structure Thread (σ : Type*) where
  stage : Stage σ
  shared : Shared
  exit_thread_flag : Bool
  history : History

/-- `exit_thread_flag` is never cleared, and the guest may store what it likes. -/
inductive ThreadLabel (σ ρ : Type*)
  | construct (device : σ)
  | device (ready : Bool) (result : ρ)
  | storeStatus (value : U32)
  | guest (shared : Shared)
  | setExit

def History.setup (h : History) (c : Config) (pc : SetupPc) : History :=
  if pc = .queueAck (c.numQueues - 1) then
    { h with done := Function.update h.done .queues true }
  else h

def History.loop (h : History) (s : Shared) (pc : LoopPc) : History :=
  if s.regs.magicValue = virtMagic then h
  else match pc with
    | .loadAvailIdx q => { h with visits := Function.update h.visits q (h.visits q + 1) }
    | .storeUsedIdx w _ =>
        { h with entries := Function.update h.entries w.queue_idx (h.entries w.queue_idx + 1) }
    | _ => h

def History.guest (h : History) (s : Shared) : History :=
  if s.regs.magicValue = virtMagic then { h with visits := fun _ => 0, entries := fun _ => 0 }
  else h

section
variable {σ ρ : Type*} (dev : Device σ ρ) (c : Config)

def Thread.construct (device : σ) (t : Thread σ) : Option (Thread σ) :=
  match t.stage with
  | .construct =>
      if t.exit_thread_flag then some { t with stage := .ended }
      else some { t with
        stage := .setup .start device
        shared := { t.shared with regs := .constructed c }
        history := .start }
  | _ => none

def Thread.device (ready : Bool) (result : ρ) (t : Thread σ) : Option (Thread σ) :=
  match t.stage with
  | .setup state device =>
      if state.pc = .returned then
        some { t with stage := .loop ⟨.testExit, fun _ => 0, device⟩ }
      else (setupStep c t.exit_thread_flag state t.shared.regs).map fun (state', regs) =>
        { t with
          stage := .setup state' device
          shared := { t.shared with regs }
          history := t.history.setup c state.pc }
  | .loop state =>
      if state.pc = .returned then some { t with stage := .construct }
      else (loopStep dev c ⟨t.exit_thread_flag, ready, result⟩ state t.shared).map
        fun (state', shared) =>
          { t with stage := .loop state', shared, history := t.history.loop t.shared state.pc }
  | .construct | .ended => none

def Thread.storeStatus (value : U32) (t : Thread σ) : Thread σ :=
  let regs := { t.shared.regs with status := value }
  { t with
    shared := { t.shared with regs }
    history :=
      if value = 0 then { t.history with resetAt := t.stage.passed, done := fun _ => false }
      else { t.history with done := fun p => t.history.done p || regs.grants p } }

def Thread.guest (shared : Shared) (t : Thread σ) : Thread σ :=
  let regs := { shared.regs with status := t.shared.regs.status }
  { t with shared := { shared with regs }, history := t.history.guest shared }

def lifecycle : System (Thread σ) (ThreadLabel σ ρ) where
  init t := t.stage = .construct ∧ t.history = .start
  step
    | .construct device, t => t.construct c device
    | .device ready result, t => t.device dev c ready result
    | .storeStatus value, t => some (t.storeStatus value)
    | .guest shared, t => some (t.guest shared)
    | .setExit, t => some { t with exit_thread_flag := true }

variable {dev c}

inductive DeviceStep (dev : Device σ ρ) (c : Config) (ready : Bool) (result : ρ) (t : Thread σ) :
    Thread σ → Prop
  | setup {s s' : Setup} {device : σ} {regs : Regs} : t.stage = .setup s device →
      setupStep c t.exit_thread_flag s t.shared.regs = some (s', regs) →
      DeviceStep dev c ready result t { t with
        stage := .setup s' device
        shared := { t.shared with regs }
        history := t.history.setup c s.pc }
  | enter {s : Setup} {device : σ} : t.stage = .setup s device → s.pc = .returned →
      DeviceStep dev c ready result t { t with stage := .loop ⟨.testExit, fun _ => 0, device⟩ }
  | loop {l l' : Loop σ} {shared : Shared} : t.stage = .loop l → l.pc ≠ .returned →
      loopStep dev c ⟨t.exit_thread_flag, ready, result⟩ l t.shared = some (l', shared) →
      DeviceStep dev c ready result t
        { t with stage := .loop l', shared, history := t.history.loop t.shared l.pc }
  | leave {l : Loop σ} : t.stage = .loop l → l.pc = .returned →
      DeviceStep dev c ready result t { t with stage := .construct }

theorem device_cases {ready : Bool} {result : ρ} {t t' : Thread σ}
    (action : t.device dev c ready result = some t') : DeviceStep dev c ready result t t' := by
  unfold Thread.device at action
  cases at_stage : t.stage with
  | construct | ended => simp [at_stage] at action
  | setup s device =>
      simp only [at_stage] at action
      split at action
      · rename_i finished
        cases action
        exact .enter at_stage finished
      · obtain ⟨⟨s', regs⟩, moved, rfl⟩ := Option.map_eq_some_iff.mp action
        exact .setup at_stage moved
  | loop l =>
      simp only [at_stage] at action
      split at action
      · rename_i finished
        cases action
        exact .leave at_stage finished
      · rename_i running
        obtain ⟨⟨l', shared⟩, moved, rfl⟩ := Option.map_eq_some_iff.mp action
        exact .loop at_stage running moved

end

def LoopPc.touches : LoopPc → Bool
  | .loadAvailIdx _ | .loadHead _ | .peekLen _ | .peekAddr _ | .loadLen _ | .loadAddr _ _
  | .loadFlags _ _ _ | .process _ _ _ _ | .loadNext _ | .loadUsedIdx _ | .storeId _ _
  | .storeLen _ _ | .storeUsedIdx _ _ => true
  | _ => false

def Thread.Touches {σ : Type*} (t : Thread σ) : Prop :=
  match t.stage with
  | .loop state => state.pc.touches
  | _ => False

end TtBhLinux.Virtio
