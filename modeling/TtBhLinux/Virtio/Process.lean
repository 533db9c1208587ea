import TtBhLinux.Virtio.Lifecycle

/-!
# The threads of tt-bh-linux

Any number of `disk_main` and `network_main` threads share `exit_thread_flag`, the interrupt register
and its lock. `console_main` may set the flag at any time.
-/

namespace TtBhLinux.Virtio
open Common

structure Process {ι : Type*} (σ : ι → Type*) where
  threads : ∀ i, Thread (σ i)
  holder : Option ι
  interruptRegister : U32

inductive ProcessLabel {ι : Type*} (σ ρ : ι → Type*)
  | thread (i : ι) (label : ThreadLabel (σ i) (ρ i))
  | acquire (i : ι)
  | release (i : ι)
  | setExit

inductive Signal
  | quiet
  | due
  | raise
  | lower
  deriving DecidableEq

def LoopPc.signal : LoopPc → Signal
  | .countProcessed _ | .loadInterruptStatus _ | .storeInterruptStatus _ _ => .due
  | .raise _ => .raise
  | .lower _ => .lower
  | _ => .quiet

def Stage.signal {σ : Type*} : Stage σ → Signal
  | .loop l => l.pc.signal
  | _ => .quiet

def Signal.locked : Signal → Bool
  | .raise | .lower => true
  | _ => false

def ThreadLabel.isDevice {σ ρ : Type*} : ThreadLabel σ ρ → Bool
  | .device _ _ => true
  | _ => false

section
variable {ι : Type*} [DecidableEq ι] {σ ρ : ι → Type*}

def Process.signal (s : Process σ) (i : ι) : Signal := (s.threads i).stage.signal

/-- A thread holds the lock for its two stores; the flag is one for all threads. -/
def Process.enabled (s : Process σ) (i : ι) : ThreadLabel (σ i) (ρ i) → Bool
  | .device _ _ => (s.signal i).locked == decide (s.holder = some i)
  | .setExit => false
  | _ => true

def Thread.seeing {τ : Type*} (register : U32) (t : Thread τ) : Thread τ :=
  { t with shared := { t.shared with interruptRegister := register } }

def process (dev : ∀ i, Device (σ i) (ρ i)) (c : ι → Config) :
    System (Process σ) (ProcessLabel σ ρ) where
  init s := (∀ i, (lifecycle (dev i) (c i)).init (s.threads i)) ∧ s.holder = none
  step
    | .thread i label, s =>
        if s.enabled i label then
          ((lifecycle (dev i) (c i)).step label ((s.threads i).seeing s.interruptRegister)).map
            fun t =>
              { s with
                threads := Function.update s.threads i t
                interruptRegister :=
                  if label.isDevice then t.shared.interruptRegister else s.interruptRegister }
        else none
    | .acquire i, s =>
        if s.holder = none ∧ s.signal i = .raise then some { s with holder := some i }
        else none
    | .release i, s =>
        if s.holder = some i ∧ (s.signal i).locked = false then
          some { s with holder := none }
        else none
    | .setExit, s =>
        some { s with threads := fun i => { s.threads i with exit_thread_flag := true } }

end

/-! ## What a step stores in the interrupt register -/

def Config.line (c : Config) : U32 := 1 <<< (c.interruptNumber - 5)

def LoopPc.interruptStore (c : Config) : LoopPc → Option U32
  | .raise _ => some c.line
  | .lower _ => some 0
  | _ => none

theorem loopStep_interruptRegister {σ ρ : Type*} {dev : Device σ ρ} {c : Config} {a : Answer ρ}
    {loop loop' : Loop σ} {s s' : Shared}
    (action : loopStep dev c a loop s = some (loop', s')) :
    s'.interruptRegister = (loop.pc.interruptStore c).getD s.interruptRegister := by
  unfold loopStep at action
  cases pc : loop.pc with
  | process w l addr more =>
      simp only [pc] at action
      split at action <;> obtain ⟨rfl, rfl⟩ := Prod.mk.inj (Option.some.inj action) <;> rfl
  | returned | fault f => simp [pc] at action
  | _ =>
      simp only [pc] at action
      obtain ⟨rfl, rfl⟩ := Prod.mk.inj (Option.some.inj action)
      rfl

end TtBhLinux.Virtio
