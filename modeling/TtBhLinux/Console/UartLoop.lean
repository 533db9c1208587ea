import TtBhLinux.Console.Lossless

/-!
# uart_loop and its guest

`uart_loop` types what it reads into rx and prints what it finds in tx. The guest is one thread too:
it finishes a call on a ring before it begins another.
-/

namespace TtBhLinux.Console
open Common

def virtualUartMagic : U64 := 0x5649525455415254

def eagain : Int := 11

inductive UartPc
  | testExit
  | testMagic
  | input
  | push
  | canPop
  | pop
  | returned (value : Int)
  deriving DecidableEq

structure Machine where
  queues : Queues
  pc : UartPc
  ctrlAPressed : Bool
  exitThreadFlag : Bool
  magic : U64

/-- `key` is what `select` and `read` have for the loop, if it is there that it is. -/
inductive Event
  | uart (key : Option U8)
  | guest (label : Label)
  | exit
  | magic (value : U64)

namespace Machine

def withTx (s : Machine) (d : Direction) : Machine := { s with queues := { s.queues with tx := d } }

def withRx (s : Machine) (d : Direction) : Machine := { s with queues := { s.queues with rx := d } }

def onQueues (label : Label) (s : Machine) : Option Machine :=
  (s.queues.step label).map fun queues => { s with queues }

def callCanPop (s : Machine) : Option Machine := { s with pc := .canPop }.onQueues (.tx .poll)

def uartStep (key : Option U8) (s : Machine) : Option Machine :=
  match s.pc with
  | .testExit => some { s with pc := if s.exitThreadFlag then .returned 0 else .testMagic }
  | .testMagic =>
      some { s with pc := if s.magic != virtualUartMagic then .returned (-eagain) else .input }
  | .input => match key with
      | none => s.callCanPop
      | some input =>
          if s.ctrlAPressed then
            if input = 0x78 then some { s with pc := .returned 0 }
            else { s with ctrlAPressed := false }.callCanPop
          else if input = 1 then { s with ctrlAPressed := true }.callCanPop
          else { s with pc := .push }.onQueues (.rx (.push input))
  | .push =>
      if s.queues.rx.pusher = .idle then s.callCanPop else s.onQueues (.rx (.pushStep false))
  | .canPop => match s.queues.tx.popper with
      | .idle ready =>
          if ready then { s with pc := .pop }.onQueues (.tx .pop) else some { s with pc := .testExit }
      | _ => s.onQueues (.tx (.popStep false))
  | .pop => match s.queues.tx.popper with
      | .idle _ => some { s with pc := .testExit }
      | _ => s.onQueues (.tx (.popStep false))
  | .returned _ => none

end Machine

/-- A call that the guest begins when it is in no other, or the next step of the one that it is in.
-/
def guestTurn (q : Queues) : Label → Bool
  | .tx (.push _) => q.rx.popper.isIdle
  | .tx (.pushStep _) => true
  | .rx .poll | .rx .pop => q.tx.pusher = .idle
  | .rx (.popStep _) => true
  | _ => false

def Machine.step : Event → Machine → Option Machine
  | .uart key, s => s.uartStep key
  | .guest label, s => if guestTurn s.queues label then s.onQueues label else none
  | .exit, s => some { s with exitThreadFlag := true }
  | .magic value, s => some { s with magic := value }

def uartLoop (tx rx : Ring) : System Machine Event where
  init s := s.queues = ⟨.fresh tx, .fresh rx⟩ ∧ s.pc = .testExit ∧ s.ctrlAPressed = false
  step := Machine.step

inductive UartStep (key : Option U8) (s t : Machine) : Prop
  | enter : s.pc = .testExit → t.pc = .testMagic → t.queues = s.queues → UartStep key s t
  | look : s.pc = .testMagic → t.pc = .input → t.queues = s.queues → UartStep key s t
  | leave : s.pc ≠ .push → (∀ value, s.pc ≠ .returned value) →
      (s.pc = .canPop ∨ s.pc = .pop → s.queues.tx.popper.isIdle) →
      (t.pc = .testExit ∨ ∃ value, t.pc = .returned value) → t.queues = s.queues → UartStep key s t
  | poll : s.pc = .input ∨ s.pc = .push ∧ s.queues.rx.pusher = .idle → t.pc = .canPop →
      s.queues.step (.tx .poll) = some t.queues → UartStep key s t
  | push (c : U8) : s.pc = .input → s.ctrlAPressed = false → key = some c → c ≠ 1 → t.pc = .push →
      s.queues.step (.rx (.push c)) = some t.queues → UartStep key s t
  | pushStep : s.pc = .push → s.queues.rx.pusher ≠ .idle → t.pc = .push →
      s.queues.step (.rx (.pushStep false)) = some t.queues → UartStep key s t
  | pop : s.pc = .canPop → s.queues.tx.popper = .idle true → t.pc = .pop →
      s.queues.step (.tx .pop) = some t.queues → UartStep key s t
  | popStep : s.pc = .canPop ∨ s.pc = .pop → s.queues.tx.popper.isIdle = false → t.pc = s.pc →
      s.queues.step (.tx (.popStep false)) = some t.queues → UartStep key s t

theorem onQueues_eq {label : Label} {s t : Machine} (action : s.onQueues label = some t) :
    s.queues.step label = some t.queues ∧ t.pc = s.pc := by
  obtain ⟨q, moved, rfl⟩ := Option.map_eq_some_iff.mp action
  exact ⟨moved, rfl⟩

theorem callCanPop_poll {key : Option U8} {s s' t : Machine} (queues : s'.queues = s.queues)
    (from_call : s.pc = .input ∨ s.pc = .push ∧ s.queues.rx.pusher = .idle)
    (action : s'.callCanPop = some t) : UartStep key s t := by
  obtain ⟨moved, pc⟩ := onQueues_eq action
  exact .poll from_call pc (queues ▸ moved)

theorem PopPc.isIdle_false {pc : PopPc} (h : ∀ ready, pc ≠ .idle ready) : pc.isIdle = false := by
  cases pc with
  | idle ready => exact absurd rfl (h ready)
  | _ => rfl

theorem uartStep_cases {key : Option U8} {s t : Machine} (action : s.uartStep key = some t) :
    UartStep key s t := by
  unfold Machine.uartStep at action
  cases pc : s.pc with
  | testExit =>
      simp only [pc, Option.some.injEq] at action
      subst action
      by_cases exit : s.exitThreadFlag
      · exact .leave (by simp [pc]) (by simp [pc]) (by simp [pc]) (.inr ⟨0, if_pos exit⟩) rfl
      · exact .enter pc (if_neg exit) rfl
  | testMagic =>
      simp only [pc, Option.some.injEq] at action
      subst action
      by_cases gone : s.magic != virtualUartMagic
      · exact .leave (by simp [pc]) (by simp [pc]) (by simp [pc]) (.inr ⟨-eagain, if_pos gone⟩) rfl
      · exact .look pc (if_neg gone) rfl
  | input =>
      simp only [pc] at action
      cases key with
      | none => exact callCanPop_poll (by rfl) (.inl pc) action
      | some c =>
          simp only at action
          split at action
          · split at action
            · cases action
              exact .leave (by simp [pc]) (by simp [pc]) (by simp [pc]) (.inr ⟨0, rfl⟩) rfl
            · exact callCanPop_poll (by rfl) (.inl pc) action
          · rename_i plain
            split at action
            · exact callCanPop_poll (by rfl) (.inl pc) action
            · rename_i typed
              obtain ⟨moved, pushing⟩ := onQueues_eq action
              exact .push c pc (Bool.not_eq_true _ ▸ plain) rfl typed pushing moved
  | push =>
      simp only [pc] at action
      split at action
      · rename_i idle
        exact callCanPop_poll rfl (.inr ⟨pc, idle⟩) action
      · rename_i busy
        obtain ⟨moved, same⟩ := onQueues_eq action
        exact .pushStep pc busy (same.trans pc) moved
  | canPop =>
      simp only [pc] at action
      split at action
      · rename_i ready idle
        split at action
        · rename_i found
          obtain ⟨moved, popping⟩ := onQueues_eq action
          exact .pop pc (by rw [idle, found]) popping moved
        · cases action
          exact .leave (by simp [pc]) (by simp [pc]) (fun _ => by rw [idle]; rfl) (.inl rfl) rfl
      · rename_i busy
        obtain ⟨moved, same⟩ := onQueues_eq action
        exact .popStep (.inl pc) (PopPc.isIdle_false fun ready idle => busy ready idle) same moved
  | pop =>
      simp only [pc] at action
      split at action
      · rename_i ready idle
        cases action
        exact .leave (by simp [pc]) (by simp [pc]) (fun _ => by rw [idle]; rfl) (.inl rfl) rfl
      · rename_i busy
        obtain ⟨moved, same⟩ := onQueues_eq action
        exact .popStep (.inr pc) (PopPc.isIdle_false fun ready idle => busy ready idle) same moved
  | returned value => simp [pc] at action

/-! ## The machine is a console -/

theorem UartStep.queues {key : Option U8} {s t : Machine} (step : UartStep key s t) :
    t.queues = s.queues ∨ ∃ label, s.queues.step label = some t.queues := by
  cases step with
  | enter _ _ same | look _ _ same | leave _ _ _ _ same => exact .inl same
  | poll _ _ moved | push _ _ _ _ _ _ moved | pushStep _ _ _ moved | pop _ _ _ moved
  | popStep _ _ _ moved => exact .inr ⟨_, moved⟩

theorem step_queues {event : Event} {s t : Machine} (action : s.step event = some t) :
    t.queues = s.queues ∨ ∃ label, s.queues.step label = some t.queues := by
  cases event with
  | uart key => exact (uartStep_cases action).queues
  | guest label =>
      obtain ⟨_, moved⟩ := Option.ite_none_right_eq_some.mp action
      exact .inr ⟨label, (onQueues_eq moved).1⟩
  | exit =>
      cases action
      exact .inl rfl
  | magic value =>
      cases action
      exact .inl rfl

end TtBhLinux.Console
