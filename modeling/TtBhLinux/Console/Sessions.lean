import TtBhLinux.Console.Escape
import TtBhLinux.L2cpu.Windows

/-!
# Sessions at the terminal

Over all sessions together nothing that is typed or printed is lost. While the guest has its debug
descriptor in place, `console_main` returns only by the user's escape; a window that cannot be opened
ends the program by `exit(1)`.
-/

namespace TtBhLinux.Console
open Common L2cpu

/-! ## TerminalRawMode -/

structure Termios where
  iflag : U32
  oflag : U32
  cflag : U32
  lflag : U32
  deriving DecidableEq

/-- ECHO, ICANON, ISIG, IEXTEN; BRKINT, INPCK, ISTRIP, IXON, ICRNL; OPOST; CS8. -/
def Termios.raw (t : Termios) : Termios where
  iflag := t.iflag &&& ~~~(0x2 ||| 0x10 ||| 0x20 ||| 0x400 ||| 0x100)
  oflag := t.oflag &&& ~~~0x1
  cflag := t.cflag ||| 0x30
  lflag := t.lflag &&& ~~~(0x8 ||| 0x2 ||| 0x1 ||| 0x8000)

/-! ## console_main -/

def openSbiDebugPtr : U64 := 0x80

/-- OSBIdbug -/
def eyeCatcher : List U8 := [0x4f, 0x53, 0x42, 0x49, 0x64, 0x62, 0x75, 0x67]

def virtuartBaseOffset : U64 := 16
def debugDescriptorSize : Nat := 24

def InWindow (addr : U64) (len : Nat) : Prop := (addr &&& (twoMeg - 1)).toNat + len ≤ twoMeg.toNat

instance (addr : U64) (len : Nat) : Decidable (InWindow addr len) :=
  inferInstanceAs (Decidable (_ ≤ _))

inductive MainPc
  | testExit
  | readPointer
  | eyeCatcher (descriptor : U64) (i : Nat)
  | virtuartBase (descriptor : U64)
  | loop
  | sleep
  | setExit
  | returned
  /-- `exit(1)` in `TlbHandle` has ended the program. -/
  | exited
  /-- An access behind the end of the window of the descriptor. -/
  | fault
  deriving DecidableEq

inductive Opening
  | opens
  | throws
  | exits

/-- `memory` is the tile's, apart from the rings; the user's settings and the bytes read are
remembered. -/
structure ConsoleMain where
  machine : Machine
  pc : MainPc
  memory : U64 → U8
  uartBase : U64
  terminal : Termios
  origTermios : Termios
  settings : Termios
  past : List (List U8)
  bytes : List U8

/-- The program may be started again once it has ended; settings are changed outside of the loop. -/
inductive MainEvent
  | thread (opening : Opening) (key : Option U8)
  | world (event : Event)
  | store (memory : U64 → U8)
  | launch
  | stty (settings : Termios)

namespace ConsoleMain

def attach (uart_base : U64) (s : ConsoleMain) : ConsoleMain where
  machine := { s.machine with pc := .testExit, ctrlAPressed := false }
  pc := .loop
  memory := s.memory
  uartBase := uart_base
  terminal := s.terminal.raw
  origTermios := s.terminal
  settings := s.settings
  past := s.past ++ [s.bytes]
  bytes := []

def threadStep (starting_address : U64) (opening : Opening) (key : Option U8) (s : ConsoleMain) :
    Option ConsoleMain :=
  match s.pc with
  | .testExit => some { s with pc := if s.machine.exitThreadFlag then .returned else .readPointer }
  | .readPointer =>
      let debug_descriptor := loadU32 s.memory (starting_address + openSbiDebugPtr)
      some { s with pc := match opening with
        | .opens => .eyeCatcher (starting_address + debug_descriptor.setWidth 64) 0
        | .throws => .sleep
        | .exits => .exited }
  | .eyeCatcher descriptor i =>
      some { s with pc :=
        if ¬InWindow descriptor (i + 1) then .fault
        else if Console.eyeCatcher[i]? ≠ some (s.memory (descriptor + .ofNat 64 i)) then .setExit
        else if i + 1 < Console.eyeCatcher.length then .eyeCatcher descriptor (i + 1)
        else .virtuartBase descriptor }
  | .virtuartBase descriptor =>
      let uart_base := loadU64 s.memory (descriptor + virtuartBaseOffset)
      if ¬InWindow descriptor debugDescriptorSize then some { s with pc := .fault }
      else if uart_base = 0xffffffffffffffff then some { s with pc := .setExit }
      else match opening with
        | .opens => some (s.attach uart_base)
        | .throws => some { s with pc := .sleep }
        | .exits => some { s with pc := .exited }
  | .loop => match s.machine.pc with
      | .returned value => some { s with
          terminal := s.origTermios
          pc := if value = -eagain then .sleep else .setExit }
      | _ => (s.machine.uartStep key).map fun machine =>
          { s with machine, bytes := s.bytes ++ (s.machine.readByte (.uart key)).toList }
  | .sleep => some { s with pc := .testExit }
  | .setExit => some { s with machine := { s.machine with exitThreadFlag := true }, pc := .returned }
  | .returned | .exited | .fault => none

def step (starting_address : U64) (event : MainEvent) (s : ConsoleMain) : Option ConsoleMain :=
  match event with
  | .thread opening key => s.threadStep starting_address opening key
  | .world event =>
      if event.isUart then none else (s.machine.step event).map fun machine => { s with machine }
  | .store memory => some { s with memory }
  | .launch =>
      if s.pc = .returned ∨ s.pc = .exited then some { s with
        machine := { s.machine with exitThreadFlag := false }
        pc := .testExit }
      else none
  | .stty settings =>
      if s.pc = .loop then none else some { s with terminal := settings, settings }

end ConsoleMain

def consoleMain (idx : Fin 4) (tx rx : Ring) : System ConsoleMain MainEvent where
  init s := (uartLoop tx rx).init s.machine ∧ s.pc = .testExit ∧ s.machine.exitThreadFlag = false ∧
    s.terminal = s.settings ∧ s.past = [] ∧ s.bytes = []
  step := ConsoleMain.step (l2cpuStartingAddressMapping idx)

/-! ## Over all sessions -/

structure SessionsInv (tx rx : Ring) (s : ConsoleMain) : Prop where
  machine : MachineInv tx rx s.machine
  rests : s.pc ≠ .loop → AtTest s.machine
  pressed : s.pc = .loop → (∀ value, s.machine.pc ≠ .returned value) →
    (s.machine.ctrlAPressed = true ↔ ctrlRun s.bytes s.bytes.length % 2 = 1)
  passed : s.machine.queues.rx.passed = s.past.flatMap filtered ++ filtered s.bytes
  terminal : s.terminal = if s.pc = .loop then s.settings.raw else s.settings
  saved : s.pc = .loop → s.origTermios = s.settings
  stopped : s.pc = .returned → s.machine.exitThreadFlag = true

theorem AtTest.resting {s : Machine} (test : AtTest s) (calls : Calls s) :
    s.queues.rx.pusher = .idle ∧ s.queues.tx.popper.isIdle = true := by
  rcases test with pc | ⟨value, pc⟩
  · exact calls.resting (by simp [pc]) (by simp [pc]) (by simp [pc])
  · exact calls.resting (by simp [pc]) (by simp [pc]) (by simp [pc])

structure Filtered (c : U8) (bytes : List U8) (s t : Machine) : Prop where
  passed : ∃ new, filtered (bytes ++ [c]) = filtered bytes ++ new ∧
    t.queues.rx.passed = s.queues.rx.passed ++ new
  pressed : t.pc ≠ .returned 0 →
    (t.ctrlAPressed = true ↔ ctrlRun (bytes ++ [c]) (bytes ++ [c]).length % 2 = 1)

theorem KeyStep.filtered {c : U8} {bytes : List U8} {s t : Machine} (step : KeyStep c s t)
    (pressed : s.ctrlAPressed = true ↔ ctrlRun bytes bytes.length % 2 = 1) :
    Filtered c bytes s t := by
  have dropped (odd : ¬(c ≠ ctrlA ∧ ctrlRun bytes bytes.length % 2 = 0))
      (same : t.queues.rx.passed = s.queues.rx.passed) :
      ∃ new, Console.filtered (bytes ++ [c]) = Console.filtered bytes ++ new ∧
        t.queues.rx.passed = s.queues.rx.passed ++ new :=
    ⟨[], by rw [filtered_append, if_neg odd], by rw [same, List.append_nil]⟩
  cases step with
  | escape armed eq pc same =>
      have odd := pressed.mp armed
      exact ⟨dropped (by omega) same, fun goes_on => absurd pc goes_on⟩
  | swallow armed ne flag pc same =>
      have odd := pressed.mp armed
      refine ⟨dropped (by omega) same, fun _ => ?_⟩
      rw [ctrlRun_last, flag]
      exact iff_of_false Bool.false_ne_true (by split <;> omega)
  | arm unarmed eq flag pc same =>
      have even : ¬ctrlRun bytes bytes.length % 2 = 1 := by
        rw [← pressed, unarmed]
        exact Bool.false_ne_true
      refine ⟨dropped (fun here => here.1 eq) same, fun _ => ?_⟩
      rw [ctrlRun_last, flag, if_pos eq]
      exact iff_of_true rfl (by omega)
  | pass unarmed ne flag pc same =>
      have even : ¬ctrlRun bytes bytes.length % 2 = 1 := by
        rw [← pressed, unarmed]
        exact Bool.false_ne_true
      refine ⟨⟨[c], ?_, same⟩, fun _ => ?_⟩
      · rw [filtered_append, if_pos ⟨ne, by omega⟩]
      · rw [ctrlRun_last, flag, if_neg ne]
        simp

structure WorldStep (s t : Machine) : Prop where
  other : OtherStep s t
  pc : t.pc = s.pc
  exitThreadFlag : s.exitThreadFlag = true → t.exitThreadFlag = true

theorem worldStep {event : Event} {s t : Machine} (world : event.isUart = false)
    (action : s.step event = some t) : WorldStep s t := by
  cases event with
  | uart key => cases world
  | guest label =>
      have other := otherStep action rfl
      obtain ⟨turn, moved⟩ := Option.ite_none_right_eq_some.mp action
      obtain ⟨q, -, rfl⟩ := Option.map_eq_some_iff.mp moved
      exact ⟨other, rfl, id⟩
  | exit =>
      have other := otherStep action rfl
      cases action
      exact ⟨other, rfl, fun _ => rfl⟩
  | magic value =>
      have other := otherStep action rfl
      cases action
      exact ⟨other, rfl, id⟩

section
variable {tx rx : Ring} {s : ConsoleMain}

theorem filtered_nil : filtered [] = [] := rfl

theorem SessionsInv.attach (inv : SessionsInv tx rx s) (outside : s.pc ≠ .loop) (uart_base : U64) :
    SessionsInv tx rx (s.attach uart_base) := by
  obtain ⟨push, pop⟩ := (inv.rests outside).resting inv.machine.calls
  have restored : s.terminal = s.settings := inv.terminal.trans (if_neg outside)
  refine ⟨⟨inv.machine.queues, inv.machine.calls.between rfl push pop⟩, fun _ => .inl rfl, ?_, ?_, ?_,
    fun _ => restored, fun returned => by cases returned⟩
  · exact fun _ _ => iff_of_false Bool.false_ne_true (show ¬ctrlRun [] 0 % 2 = 1 by decide)
  · show s.machine.queues.rx.passed = (s.past ++ [s.bytes]).flatMap filtered ++ filtered []
    rw [filtered_nil, List.append_nil, List.flatMap_append, List.flatMap_singleton]
    exact inv.passed
  · exact congrArg Termios.raw restored

theorem SessionsInv.outside (inv : SessionsInv tx rx s) {pc : MainPc} (outside : s.pc ≠ .loop)
    (still : pc ≠ .loop) (stopped : pc = .returned → s.machine.exitThreadFlag = true) :
    SessionsInv tx rx { s with pc } := by
  refine ⟨inv.machine, fun _ => inv.rests outside, fun loop => absurd loop still, inv.passed, ?_,
    fun loop => absurd loop still, stopped⟩
  rw [if_neg still]
  exact inv.terminal.trans (if_neg outside)

theorem SessionsInv.world (inv : SessionsInv tx rx s) {event : Event} {machine : Machine}
    (world : event.isUart = false) (action : s.machine.step event = some machine) :
    SessionsInv tx rx { s with machine } := by
  have step := worldStep world action
  refine ⟨inv.machine.step action, fun outside => ?_, fun loop running => ?_,
    step.other.passed.trans inv.passed, inv.terminal, inv.saved,
    fun returned => step.exitThreadFlag (inv.stopped returned)⟩
  · rw [AtTest, step.pc]
    exact inv.rests outside
  · rw [step.other.ctrlAPressed]
    exact inv.pressed loop fun value left => running value (step.pc.trans left)

theorem SessionsInv.leave (inv : SessionsInv tx rx s) {value : Int} (loop : s.pc = .loop)
    (left : s.machine.pc = .returned value) :
    SessionsInv tx rx { s with
      terminal := s.origTermios
      pc := if value = -eagain then .sleep else .setExit } := by
  have next : (if value = -eagain then MainPc.sleep else .setExit) ≠ .loop := by
    split <;> exact MainPc.noConfusion
  refine ⟨inv.machine, fun _ => .inr ⟨value, left⟩, fun loop => absurd loop next, inv.passed, ?_,
    fun loop => absurd loop next, fun returned => ?_⟩
  · rw [if_neg next]
    exact inv.saved loop
  · exfalso
    revert returned
    dsimp only
    split <;> exact MainPc.noConfusion

theorem SessionsInv.uart (inv : SessionsInv tx rx s) {key : Option U8} {machine : Machine}
    (loop : s.pc = .loop) (running : ∀ value, s.machine.pc ≠ .returned value)
    (action : s.machine.uartStep key = some machine) :
    SessionsInv tx rx
      { s with machine, bytes := s.bytes ++ (s.machine.readByte (.uart key)).toList } := by
  have pressed := inv.pressed loop running
  have moved : s.machine.step (.uart key) = some machine := action
  have not_returned : s.pc ≠ .returned := by simp [loop]
  have goes_on {bytes : List U8} (flag : (∀ value, machine.pc ≠ .returned value) →
      (machine.ctrlAPressed = true ↔ ctrlRun bytes bytes.length % 2 = 1))
      (passed : machine.queues.rx.passed = s.past.flatMap filtered ++ filtered bytes) :
      SessionsInv tx rx { s with machine, bytes } :=
    ⟨inv.machine.step moved, fun outside => absurd loop outside, fun _ => flag, passed, inv.terminal,
      inv.saved, fun returned => absurd returned not_returned⟩
  cases read : s.machine.readByte (.uart key) with
  | none =>
      have other := otherStep moved read
      rw [Option.toList_none, List.append_nil]
      exact goes_on (fun _ => by rw [other.ctrlAPressed]; exact pressed)
        (other.passed.trans inv.passed)
  | some c =>
      cases key with
      | none => cases read
      | some c' =>
          obtain ⟨input, eq⟩ := Option.ite_none_right_eq_some.mp read
          cases eq
          have filter := (keyStep_cases input action).filtered pressed
          obtain ⟨new, grown, passed⟩ := filter.passed
          refine goes_on (fun still => filter.pressed (still 0)) ?_
          rw [Option.toList_some, grown, passed, inv.passed, List.append_assoc]

theorem SessionsInv.thread (inv : SessionsInv tx rx s) {starting_address : U64} {opening : Opening}
    {key : Option U8} {t : ConsoleMain} (action : s.threadStep starting_address opening key = some t) :
    SessionsInv tx rx t := by
  unfold ConsoleMain.threadStep at action
  cases pc : s.pc with
  | testExit =>
      simp only [pc, Option.some.injEq] at action
      subst action
      refine inv.outside (by simp [pc]) (by split <;> exact MainPc.noConfusion) fun returned => ?_
      by_contra stays
      rw [if_neg stays] at returned
      cases returned
  | readPointer =>
      simp only [pc, Option.some.injEq] at action
      subst action
      apply inv.outside (by simp [pc])
      all_goals split <;> exact MainPc.noConfusion
  | eyeCatcher descriptor i =>
      simp only [pc, Option.some.injEq] at action
      subst action
      apply inv.outside (by simp [pc])
      all_goals repeat' split
      all_goals exact MainPc.noConfusion
  | virtuartBase descriptor =>
      have outside : s.pc ≠ .loop := by simp [pc]
      simp only [pc] at action
      split at action
      · cases action
        exact inv.outside outside MainPc.noConfusion MainPc.noConfusion
      · split at action
        · cases action
          exact inv.outside outside MainPc.noConfusion MainPc.noConfusion
        · cases opening with
          | opens =>
              cases action
              exact inv.attach outside _
          | throws | exits =>
              cases action
              exact inv.outside outside MainPc.noConfusion MainPc.noConfusion
  | loop =>
      simp only [pc] at action
      split at action
      · rename_i value left
        cases action
        exact inv.leave pc left
      · rename_i running
        obtain ⟨machine, moved, rfl⟩ := Option.map_eq_some_iff.mp action
        have uart := inv.uart pc (fun value left => running value left) moved
        rwa [pc] at uart
  | sleep =>
      simp only [pc, Option.some.injEq] at action
      subst action
      exact inv.outside (by simp [pc]) MainPc.noConfusion MainPc.noConfusion
  | setExit =>
      simp only [pc, Option.some.injEq] at action
      subst action
      have outside : s.pc ≠ .loop := by simp [pc]
      have flagged : SessionsInv tx rx
          { s with machine := { s.machine with exitThreadFlag := true } } :=
        @world tx rx s inv .exit _ rfl rfl
      exact flagged.outside outside MainPc.noConfusion fun _ => rfl
  | returned | exited | fault => simp [pc] at action

theorem SessionsInv.step (inv : SessionsInv tx rx s) {starting_address : U64} {event : MainEvent}
    {t : ConsoleMain} (action : s.step starting_address event = some t) : SessionsInv tx rx t := by
  cases event with
  | thread opening key => exact inv.thread action
  | store memory =>
      cases action
      exact ⟨inv.machine, inv.rests, inv.pressed, inv.passed, inv.terminal, inv.saved, inv.stopped⟩
  | world event =>
      obtain ⟨world, moved⟩ := Option.ite_none_left_eq_some.mp action
      obtain ⟨machine, stepped, rfl⟩ := Option.map_eq_some_iff.mp moved
      exact inv.world (Bool.not_eq_true _ ▸ world) stepped
  | launch =>
      obtain ⟨ended, eq⟩ := Option.ite_none_right_eq_some.mp action
      cases eq
      have outside : s.pc ≠ .loop := by rcases ended with pc | pc <;> simp [pc]
      obtain ⟨push, pop⟩ := (inv.rests outside).resting inv.machine.calls
      refine ⟨⟨inv.machine.queues, inv.machine.calls.between rfl push pop⟩,
        fun _ => inv.rests outside, MainPc.noConfusion, inv.passed, ?_, MainPc.noConfusion,
        MainPc.noConfusion⟩
      exact inv.terminal.trans (if_neg outside)
  | stty settings =>
      obtain ⟨outside, eq⟩ := Option.ite_none_left_eq_some.mp action
      cases eq
      exact ⟨inv.machine, inv.rests, inv.pressed, inv.passed, (if_neg outside).symm,
        fun loop => absurd loop outside, inv.stopped⟩

theorem SessionsInv.start {idx : Fin 4} (initial : (consoleMain idx tx rx).init s) :
    SessionsInv tx rx s := by
  obtain ⟨machine, pc, -, terminal, past, bytes⟩ := initial
  have outside : s.pc ≠ .loop := by simp [pc]
  refine ⟨.initial machine, fun _ => .inl machine.2.1, fun loop => absurd loop outside, ?_,
    terminal.trans (if_neg outside).symm, fun loop => absurd loop outside, fun returned => ?_⟩
  · rw [past, bytes, machine.1]
    rfl
  · rw [pc] at returned
    cases returned

theorem sessions_inv {idx : Fin 4} (reachable : (consoleMain idx tx rx).Reachable s) :
    SessionsInv tx rx s :=
  reachable.invariant (fun _ => .start) fun _ _ _ inv _ action => inv.step action

end

structure SessionsSound (tx rx : Ring) (s : ConsoleMain) : Prop where
  typed : Lossless rx s.machine.queues.rx
  printed : Lossless tx s.machine.queues.tx
  passed : s.machine.queues.rx.passed = s.past.flatMap filtered ++ filtered s.bytes
  pushed : s.pc ≠ .loop → s.machine.queues.rx.pushed = s.past.flatMap filtered ++ filtered s.bytes
  popped : s.pc ≠ .loop → s.machine.queues.tx.popper.isIdle = true
  terminal : s.terminal = if s.pc = .loop then s.settings.raw else s.settings
  stopped : s.pc = .returned → s.machine.exitThreadFlag = true

theorem sessions_sound (idx : Fin 4) (tx rx : Ring) (s : ConsoleMain)
    (reachable : (consoleMain idx tx rx).Reachable s) : SessionsSound tx rx s := by
  have inv := sessions_inv reachable
  have queues := queues_inv inv.machine.queues
  refine ⟨queues.rxInv.lossless queues.rxFifo, queues.txInv.lossless queues.txFifo, inv.passed,
    fun outside => ?_, fun outside => ?_, inv.terminal, inv.stopped⟩
  · have idle := ((inv.rests outside).resting inv.machine.calls).1
    have passed := inv.passed
    rwa [Direction.passed, idle, PushPc.byte, List.append_nil] at passed
  · exact ((inv.rests outside).resting inv.machine.calls).2

/-! ## Who ends them -/

def descriptorAt (idx : Fin 4) (debug_descriptor : U32) : U64 :=
  l2cpuStartingAddressMapping idx + debug_descriptor.setWidth 64

def MainEvent.isExit : MainEvent → Bool
  | .world .exit => true
  | _ => false

/-- The guest has its descriptor in place, and the flag is stored to by `console_main` alone. -/
structure InPlace (idx : Fin 4) (debug_descriptor : U32) (uart_base : U64) (s : ConsoleMain)
    (event : MainEvent) : Prop where
  pointer : loadU32 s.memory (l2cpuStartingAddressMapping idx + openSbiDebugPtr) = debug_descriptor
  eye : ∀ i < eyeCatcher.length,
    eyeCatcher[i]? = some (s.memory (descriptorAt idx debug_descriptor + .ofNat 64 i))
  base : loadU64 s.memory (descriptorAt idx debug_descriptor + virtuartBaseOffset) = uart_base
  flag : event.isExit = false

instance (idx : Fin 4) (debug_descriptor : U32) (uart_base : U64) (s : ConsoleMain)
    (event : MainEvent) : Decidable (InPlace idx debug_descriptor uart_base s event) :=
  decidable_of_iff (_ ∧ _ ∧ _ ∧ _)
    ⟨fun h => ⟨h.1, h.2.1, h.2.2.1, h.2.2.2⟩, fun h => ⟨h.pointer, h.eye, h.base, h.flag⟩⟩

def Escaped (bytes : List U8) : Prop := ∃ i, EscapeAt bytes i

def ConsoleMain.Attached (descriptor uart_base : U64) (s : ConsoleMain) : Prop :=
  match s.pc with
  | .eyeCatcher d i => d = descriptor ∧ i < Console.eyeCatcher.length
  | .virtuartBase d => d = descriptor
  | .loop => s.uartBase = uart_base ∧
      ∀ value, s.machine.pc = .returned value → value = -eagain ∨ Escaped s.bytes
  | .setExit | .returned => Escaped s.bytes
  | .fault => False
  | _ => True

structure AttachedInv (descriptor uart_base : U64) (s : ConsoleMain) : Prop where
  attached : s.Attached descriptor uart_base
  flag : s.machine.exitThreadFlag = true → s.pc = .returned

structure UartEnds (key : Option U8) (s t : Machine) : Prop where
  flag : t.exitThreadFlag = s.exitThreadFlag
  returned : ∀ value, t.pc = .returned value → s.exitThreadFlag = true ∨ value = -eagain ∨
    s.pc = .input ∧ key = some escapeKey ∧ s.ctrlAPressed = true

theorem UartEnds.goes_on {key : Option U8} {s s' t : Machine} {label : Label}
    (action : s'.onQueues label = some t) (flag : s'.exitThreadFlag = s.exitThreadFlag)
    (running : ∀ value, s'.pc ≠ .returned value) : UartEnds key s t := by
  obtain ⟨q, -, rfl⟩ := Option.map_eq_some_iff.mp action
  exact ⟨flag, fun value left => absurd left (running value)⟩

theorem uart_ends {key : Option U8} {s t : Machine} (action : s.uartStep key = some t) :
    UartEnds key s t := by
  unfold Machine.uartStep at action
  cases pc : s.pc with
  | testExit =>
      simp only [pc, Option.some.injEq] at action
      subst action
      refine ⟨rfl, fun value returned => .inl ?_⟩
      by_contra stays
      rw [if_neg stays] at returned
      cases returned
  | testMagic =>
      simp only [pc, Option.some.injEq] at action
      subst action
      refine ⟨rfl, fun value returned => .inr (.inl ?_)⟩
      dsimp only at returned
      split at returned
      · exact (UartPc.returned.inj returned).symm
      · cases returned
  | input =>
      simp only [pc] at action
      cases key with
      | none => exact .goes_on action rfl fun _ => UartPc.noConfusion
      | some c =>
          simp only at action
          split at action
          · rename_i armed
            split at action
            · rename_i escape
              cases action
              exact ⟨rfl, fun _ _ => .inr (.inr ⟨pc, congrArg some escape, armed⟩)⟩
            · exact .goes_on action rfl fun _ => UartPc.noConfusion
          · split at action
            · exact .goes_on action rfl fun _ => UartPc.noConfusion
            · exact .goes_on action rfl fun _ => UartPc.noConfusion
  | push =>
      simp only [pc] at action
      split at action
      · exact .goes_on action rfl fun _ => UartPc.noConfusion
      · exact .goes_on action rfl (by simp [pc])
  | canPop =>
      simp only [pc] at action
      split at action
      · split at action
        · exact .goes_on action rfl fun _ => UartPc.noConfusion
        · cases action
          exact ⟨rfl, fun _ returned => by cases returned⟩
      · exact .goes_on action rfl (by simp [pc])
  | pop =>
      simp only [pc] at action
      split at action
      · cases action
        exact ⟨rfl, fun _ returned => by cases returned⟩
      · exact .goes_on action rfl (by simp [pc])
  | returned value' => simp [pc] at action

section
variable {tx rx : Ring} {s : ConsoleMain} {idx : Fin 4} {debug_descriptor : U32} {uart_base : U64}

theorem InWindow.mono {addr : U64} {n m : Nat} (inside : InWindow addr n) (le : m ≤ n) :
    InWindow addr m := (Nat.add_le_add_left le _).trans inside

theorem AttachedInv.running (inv : AttachedInv (descriptorAt idx debug_descriptor) uart_base s)
    (other : s.pc ≠ .returned) : s.machine.exitThreadFlag = false := by
  by_contra set
  exact other (inv.flag (Bool.not_eq_false _ ▸ set))

theorem AttachedInv.moves {descriptor : U64} (inv : AttachedInv descriptor uart_base s)
    {pc : MainPc} (other : s.pc ≠ .returned)
    (attached : ConsoleMain.Attached descriptor uart_base { s with pc }) :
    AttachedInv descriptor uart_base { s with pc } :=
  ⟨attached, fun set => absurd (inv.flag set) other⟩

theorem AttachedInv.uart (inv : AttachedInv (descriptorAt idx debug_descriptor) uart_base s)
    (sessions : SessionsInv tx rx s) {key : Option U8} {machine : Machine} (loop : s.pc = .loop)
    (running : ∀ value, s.machine.pc ≠ .returned value)
    (action : s.machine.uartStep key = some machine) :
    AttachedInv (descriptorAt idx debug_descriptor) uart_base
      { s with machine, bytes := s.bytes ++ (s.machine.readByte (.uart key)).toList } := by
  have clear := inv.running (by simp [loop])
  have ends := uart_ends action
  have attached := inv.attached
  rw [ConsoleMain.Attached, loop] at attached
  have flag : machine.exitThreadFlag ≠ true := by
    rw [ends.flag, clear]
    exact Bool.false_ne_true
  refine ⟨?_, fun set => absurd set flag⟩
  rw [ConsoleMain.Attached, loop]
  refine ⟨attached.1, fun value returned => ?_⟩
  rcases ends.returned value returned with set | vanished | ⟨input, escape, armed⟩
  · rw [clear] at set
    cases set
  · exact .inl vanished
  · have odd := (sessions.pressed loop running).mp armed
    refine .inr ⟨s.bytes.length, ?_⟩
    rw [escape, Machine.readByte, if_pos input]
    exact escapeAt_append.mpr (.inr ⟨rfl, rfl, odd⟩)

theorem AttachedInv.thread (inv : AttachedInv (descriptorAt idx debug_descriptor) uart_base s)
    (sessions : SessionsInv tx rx s) {opening : Opening} {key : Option U8} {t : ConsoleMain}
    (inside : InWindow (descriptorAt idx debug_descriptor) debugDescriptorSize)
    (real : uart_base ≠ 0xffffffffffffffff)
    (place : InPlace idx debug_descriptor uart_base s (.thread opening key))
    (action : s.threadStep (l2cpuStartingAddressMapping idx) opening key = some t) :
    AttachedInv (descriptorAt idx debug_descriptor) uart_base t := by
  have attached := inv.attached
  unfold ConsoleMain.threadStep at action
  cases pc : s.pc with
  | testExit =>
      have clear := inv.running (by simp [pc])
      simp only [pc, clear, Bool.false_eq_true, if_false, Option.some.injEq] at action
      subst action
      exact inv.moves (by simp [pc]) trivial
  | readPointer =>
      simp only [pc, Option.some.injEq, place.pointer] at action
      subst action
      refine inv.moves (by simp [pc]) ?_
      cases opening with
      | opens => exact ⟨rfl, by decide⟩
      | throws | exits => trivial
  | eyeCatcher d i =>
      rw [ConsoleMain.Attached, pc] at attached
      obtain ⟨rfl, lt⟩ := attached
      have reached : InWindow (descriptorAt idx debug_descriptor) (i + 1) :=
        inside.mono (lt.trans (by decide))
      simp only [pc, reached, not_true_eq_false, if_false, place.eye i lt, ne_eq,
        Option.some.injEq] at action
      subst action
      refine inv.moves (by simp [pc]) ?_
      by_cases more : i + 1 < Console.eyeCatcher.length
      · rw [if_pos more]
        exact ⟨rfl, more⟩
      · rw [if_neg more]
        rfl
  | virtuartBase d =>
      rw [ConsoleMain.Attached, pc] at attached
      subst attached
      simp only [pc, inside, not_true_eq_false, if_false, place.base, real] at action
      cases opening with
      | opens =>
          cases action
          have clear := inv.running (by simp [pc])
          exact ⟨⟨rfl, fun _ => UartPc.noConfusion⟩, fun set => by cases clear.symm.trans set⟩
      | throws | exits =>
          cases action
          exact inv.moves (by simp [pc]) trivial
  | loop =>
      have clear := inv.running (by simp [pc])
      rw [ConsoleMain.Attached, pc] at attached
      simp only [pc] at action
      split at action
      · rename_i value left
        cases action
        refine ⟨?_, fun set => by cases clear.symm.trans set⟩
        by_cases vanished : value = -eagain
        · rw [if_pos vanished]
          trivial
        · rw [if_neg vanished]
          exact (attached.2 value left).resolve_left vanished
      · rename_i running
        obtain ⟨machine, moved, rfl⟩ := Option.map_eq_some_iff.mp action
        have uart := inv.uart sessions pc (fun value left => running value left) moved
        rwa [pc] at uart
  | sleep =>
      simp only [pc, Option.some.injEq] at action
      subst action
      exact inv.moves (by simp [pc]) trivial
  | setExit =>
      rw [ConsoleMain.Attached, pc] at attached
      simp only [pc, Option.some.injEq] at action
      subst action
      exact ⟨attached, fun _ => rfl⟩
  | returned | exited | fault => simp [pc] at action

theorem AttachedInv.world {descriptor : U64} (inv : AttachedInv descriptor uart_base s)
    {event : Event} {machine : Machine} (world : event.isUart = false)
    (alone : (MainEvent.world event).isExit = false) (action : s.machine.step event = some machine) :
    AttachedInv descriptor uart_base { s with machine } := by
  have pc := (worldStep world action).pc
  have flag : machine.exitThreadFlag = s.machine.exitThreadFlag := by
    cases event with
    | uart key => cases world
    | guest label =>
        obtain ⟨-, moved⟩ := Option.ite_none_right_eq_some.mp action
        obtain ⟨q, -, rfl⟩ := Option.map_eq_some_iff.mp moved
        rfl
    | exit => cases alone
    | magic value =>
        cases action
        rfl
  refine ⟨?_, fun set => inv.flag (flag.symm.trans set)⟩
  have attached := inv.attached
  unfold ConsoleMain.Attached at attached ⊢
  rwa [pc]

theorem AttachedInv.step (inv : AttachedInv (descriptorAt idx debug_descriptor) uart_base s)
    (sessions : SessionsInv tx rx s) {event : MainEvent} {t : ConsoleMain}
    (inside : InWindow (descriptorAt idx debug_descriptor) debugDescriptorSize)
    (real : uart_base ≠ 0xffffffffffffffff)
    (place : InPlace idx debug_descriptor uart_base s event)
    (action : s.step (l2cpuStartingAddressMapping idx) event = some t) :
    AttachedInv (descriptorAt idx debug_descriptor) uart_base t := by
  cases event with
  | thread opening key => exact inv.thread sessions inside real place action
  | world event =>
      obtain ⟨world, moved⟩ := Option.ite_none_left_eq_some.mp action
      obtain ⟨machine, stepped, rfl⟩ := Option.map_eq_some_iff.mp moved
      exact inv.world (Bool.not_eq_true _ ▸ world) place.flag stepped
  | store memory =>
      cases action
      exact ⟨inv.attached, inv.flag⟩
  | launch =>
      obtain ⟨-, eq⟩ := Option.ite_none_right_eq_some.mp action
      cases eq
      exact ⟨trivial, fun set => by cases set⟩
  | stty settings =>
      obtain ⟨-, eq⟩ := Option.ite_none_left_eq_some.mp action
      cases eq
      exact ⟨inv.attached, inv.flag⟩

end

structure EndsByEscape (uart_base : U64) (s : ConsoleMain) : Prop where
  attached : s.pc = .loop → s.uartBase = uart_base
  escaped : s.machine.exitThreadFlag = true → Escaped s.bytes
  returned : s.pc = .returned → Escaped s.bytes
  within : s.pc ≠ .fault

theorem ends_by_escape (idx : Fin 4) (tx rx : Ring) (debug_descriptor : U32) (uart_base : U64)
    (inside : InWindow (descriptorAt idx debug_descriptor) debugDescriptorSize)
    (real : uart_base ≠ 0xffffffffffffffff) (s : ConsoleMain)
    (reachable : (consoleMain idx tx rx).ReachableUnder (InPlace idx debug_descriptor uart_base) s) :
    EndsByEscape uart_base s := by
  have both : SessionsInv tx rx s ∧ AttachedInv (descriptorAt idx debug_descriptor) uart_base s := by
    apply reachable.invariant
    · intro s initial
      refine ⟨.start initial, ?_, ?_⟩
      · rw [ConsoleMain.Attached, initial.2.1]
        trivial
      · rw [initial.2.2.1]
        exact Bool.noConfusion
    · intro s t event inv place action
      exact ⟨inv.1.step action, inv.2.step inv.1 inside real place action⟩
  have attached := both.2.attached
  refine ⟨fun loop => ?_, fun set => ?_, fun returned => ?_, fun fault => ?_⟩
  · rw [ConsoleMain.Attached, loop] at attached
    exact attached.1
  · rw [ConsoleMain.Attached, both.2.flag set] at attached
    exact attached
  · rw [ConsoleMain.Attached, returned] at attached
    exact attached
  · rw [ConsoleMain.Attached, fault] at attached
    exact attached

/-! ## The user quits and comes back -/

/-- A descriptor at offset 0x100 that names a UART at 0x400030200000. -/
def publishedMemory (x : U64) : U8 :=
  if x = 0x400030000081 then 1
  else
    (eyeCatcher ++ [1, 0, 0, 0, 0, 0, 0, 0] ++ [0, 0, 0x20, 0x30, 0, 0x40, 0, 0]).getD
      (x - 0x400030000100).toNat 0

def startConsole : ConsoleMain where
  machine := startMachine
  pc := .testExit
  memory := publishedMemory
  uartBase := 0
  terminal := ⟨0x500, 5, 0xbf, 0x8a3b⟩
  origTermios := ⟨0, 0, 0, 0⟩
  settings := ⟨0x500, 5, 0xbf, 0x8a3b⟩
  past := []
  bytes := []

def typeAndQuit (c : U8) : List MainEvent :=
  (List.replicate 13 none ++ [some c] ++ List.replicate 12 none ++ [some 1] ++
    List.replicate 5 none ++ [some 0x78, none, none]).map (MainEvent.thread .opens)

def readKey : List MainEvent :=
  .world (.guest (.rx .pop)) :: List.replicate 6 (.world (.guest (.rx (.popStep true))))

/-- In between, the program is started once without getting at its windows. -/
def typeTwice : List MainEvent :=
  typeAndQuit 65 ++ readKey ++ [.launch, .thread .opens none, .thread .exits none, .launch] ++
    typeAndQuit 66

theorem startConsole_initial (idx : Fin 4) : (consoleMain idx emptyRing emptyRing).init startConsole :=
  ⟨⟨rfl, rfl, rfl⟩, rfl, rfl, rfl, rfl, rfl⟩

theorem sessions_sound_twice :
    ∃ s, (consoleMain 0 emptyRing emptyRing).run typeTwice startConsole = some s ∧
      s.machine.queues.rx.pushed = [65, 66] ∧ s.machine.queues.rx.popped = [65] ∧
      SessionsSound emptyRing emptyRing s := by
  have run : ∃ s, (consoleMain 0 emptyRing emptyRing).run typeTwice startConsole = some s ∧
      s.machine.queues.rx.pushed = [65, 66] ∧ s.machine.queues.rx.popped = [65] :=
    ⟨_, rfl, rfl, rfl⟩
  obtain ⟨s, action, pushed, popped⟩ := run
  have start : (consoleMain 0 emptyRing emptyRing).Reachable startConsole :=
    .start (startConsole_initial 0)
  exact ⟨s, action, pushed, popped, sessions_sound 0 emptyRing emptyRing s (start.run _ action)⟩

set_option maxRecDepth 4000 in
theorem ends_by_escape_twice :
    ∃ s, (consoleMain 0 emptyRing emptyRing).runUnder (InPlace 0 0x100 0x400030200000) typeTwice
        startConsole = some s ∧
      s.machine.exitThreadFlag = true ∧ EndsByEscape 0x400030200000 s := by
  have run : ∃ s, (consoleMain 0 emptyRing emptyRing).runUnder (InPlace 0 0x100 0x400030200000)
      typeTwice startConsole = some s ∧ s.machine.exitThreadFlag = true := ⟨_, rfl, rfl⟩
  obtain ⟨s, action, set⟩ := run
  have start : (consoleMain 0 emptyRing emptyRing).ReachableUnder
      (InPlace 0 0x100 0x400030200000) startConsole := .start (startConsole_initial 0)
  exact ⟨s, action, set, ends_by_escape 0 emptyRing emptyRing 0x100 0x400030200000 (by decide)
    (by decide) s (start.runUnder _ action)⟩

end TtBhLinux.Console
