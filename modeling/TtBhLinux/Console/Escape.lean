import TtBhLinux.Console.Deadlock
import Mathlib.Data.List.Basic

/-!
# The escape filter of uart_loop

A byte is passed to `push_char` exactly if it is no Ctrl-A and follows an even number of them, and
the loop is left at the first `x` after an odd number.
-/

namespace TtBhLinux.Console
open Common

/-! ## Runs of Ctrl-A -/

def ctrlA : U8 := 1
def escapeKey : U8 := 0x78

/-- The length of the maximal run of Ctrl-A that ends right before position `i`. -/
def ctrlRun (bytes : List U8) (i : Nat) : Nat :=
  ((bytes.take i).reverse.takeWhile (· = ctrlA)).length

def EscapeAt (bytes : List U8) (i : Nat) : Prop :=
  bytes[i]? = some escapeKey ∧ ctrlRun bytes i % 2 = 1

/-- The bytes that are no Ctrl-A and follow a run of even length. -/
def filtered (bytes : List U8) : List U8 :=
  (bytes.zipIdx.filter fun entry => entry.1 ≠ ctrlA ∧ ctrlRun bytes entry.2 % 2 = 0).map Prod.fst

theorem ctrlRun_append {bytes : List U8} {c : U8} {i : Nat} (le : i ≤ bytes.length) :
    ctrlRun (bytes ++ [c]) i = ctrlRun bytes i := by
  rw [ctrlRun, List.take_append_of_le_length le]
  rfl

theorem ctrlRun_last (bytes : List U8) (c : U8) :
    ctrlRun (bytes ++ [c]) (bytes ++ [c]).length =
      if c = ctrlA then ctrlRun bytes bytes.length + 1 else 0 := by
  rw [ctrlRun, ctrlRun, List.take_length, List.take_length, List.reverse_concat,
    List.takeWhile_cons]
  by_cases ctrl : c = ctrlA
  · simp [ctrl]
  · simp [ctrl]

theorem filtered_append (bytes : List U8) (c : U8) :
    filtered (bytes ++ [c]) = filtered bytes ++
      if c ≠ ctrlA ∧ ctrlRun bytes bytes.length % 2 = 0 then [c] else [] := by
  have before : (bytes.zipIdx.filter fun entry =>
      entry.1 ≠ ctrlA ∧ ctrlRun (bytes ++ [c]) entry.2 % 2 = 0) =
        bytes.zipIdx.filter fun entry => entry.1 ≠ ctrlA ∧ ctrlRun bytes entry.2 % 2 = 0 := by
    apply List.filter_congr
    intro entry member
    rw [ctrlRun_append (List.mem_zipIdx' member).1.le]
  rw [filtered, List.zipIdx_append, List.filter_append, List.map_append, before]
  congr 1
  rw [List.zipIdx_singleton, Nat.zero_add]
  by_cases passes : c ≠ ctrlA ∧ ctrlRun bytes bytes.length % 2 = 0
  · simp [ctrlRun_append, passes]
  · rw [if_neg passes, List.filter_cons_of_neg (by simpa [ctrlRun_append] using passes)]
    rfl

theorem escapeAt_append {bytes : List U8} {c : U8} {i : Nat} :
    EscapeAt (bytes ++ [c]) i ↔ EscapeAt bytes i ∨
      i = bytes.length ∧ c = escapeKey ∧ ctrlRun bytes bytes.length % 2 = 1 := by
  rcases Nat.lt_trichotomy i bytes.length with lt | rfl | gt
  · have ne : i ≠ bytes.length := lt.ne
    rw [EscapeAt, EscapeAt, List.getElem?_append_left lt, ctrlRun_append lt.le]
    simp [ne]
  · rw [EscapeAt, EscapeAt, ctrlRun_append le_rfl]
    simp
  · have ne : i ≠ bytes.length := gt.ne'
    have longer : (bytes ++ [c]).length ≤ i := by
      rw [List.length_append]
      exact gt
    simp [EscapeAt, List.getElem?_eq_none longer, List.getElem?_eq_none gt.le, ne]

/-! ## A session at the terminal -/

def PushPc.byte : PushPc → List U8
  | .idle => []
  | .loadHead c | .loadTail c _ | .loadSlot c | .storeSlot c _ | .reloadHead c | .storeHead c _ =>
      [c]

def Direction.passed (d : Direction) : List U8 := d.pushed ++ d.pusher.byte

def Machine.readByte (s : Machine) : Event → Option U8
  | .uart (some c) => if s.pc = .input then some c else none
  | _ => none

/-- `uart_loop` with the bytes that it has read, and whether it was left in the step of a `read`. -/
structure Session where
  machine : Machine
  bytes : List U8
  escaped : Bool

def Session.step (event : Event) (s : Session) : Option Session :=
  (s.machine.step event).map fun machine =>
    match s.machine.readByte event with
    | none => { s with machine }
    | some c => ⟨machine, s.bytes ++ [c], machine.pc = .returned 0⟩

def session (tx rx : Ring) : System Session Event where
  init s := (uartLoop tx rx).init s.machine ∧ s.bytes = [] ∧ s.escaped = false
  step := Session.step

inductive KeyStep (c : U8) (s t : Machine) : Prop
  | escape : s.ctrlAPressed = true → c = escapeKey → t.pc = .returned 0 →
      t.queues.rx.passed = s.queues.rx.passed → KeyStep c s t
  | swallow : s.ctrlAPressed = true → c ≠ escapeKey → t.ctrlAPressed = false → t.pc = .canPop →
      t.queues.rx.passed = s.queues.rx.passed → KeyStep c s t
  | arm : s.ctrlAPressed = false → c = ctrlA → t.ctrlAPressed = true → t.pc = .canPop →
      t.queues.rx.passed = s.queues.rx.passed → KeyStep c s t
  | pass : s.ctrlAPressed = false → c ≠ ctrlA → t.ctrlAPressed = false → t.pc = .push →
      t.queues.rx.passed = s.queues.rx.passed ++ [c] → KeyStep c s t

structure OtherStep (s t : Machine) : Prop where
  ctrlAPressed : t.ctrlAPressed = s.ctrlAPressed
  passed : t.queues.rx.passed = s.queues.rx.passed
  returned : s.pc = .returned 0 → t.pc = .returned 0

theorem onQueues_cases {label : Label} {s t : Machine} (action : s.onQueues label = some t) :
    s.queues.step label = some t.queues ∧ t.pc = s.pc ∧ t.ctrlAPressed = s.ctrlAPressed := by
  obtain ⟨q, moved, rfl⟩ := Option.map_eq_some_iff.mp action
  exact ⟨moved, rfl, rfl⟩

theorem callCanPop_cases {s t : Machine} (action : s.callCanPop = some t) :
    t.queues.rx = s.queues.rx ∧ t.pc = .canPop ∧ t.ctrlAPressed = s.ctrlAPressed := by
  obtain ⟨moved, pc, same⟩ := onQueues_cases action
  exact ⟨(tx_step moved).1, pc, same⟩

theorem keyStep_cases {c : U8} {s t : Machine} (input : s.pc = .input)
    (action : s.uartStep (some c) = some t) : KeyStep c s t := by
  simp only [Machine.uartStep, input] at action
  by_cases pressed : s.ctrlAPressed = true
  · rw [if_pos pressed] at action
    by_cases escape : c = 0x78
    · rw [if_pos escape] at action
      cases action
      exact .escape pressed escape rfl rfl
    · rw [if_neg escape] at action
      obtain ⟨rx, pc, same⟩ := callCanPop_cases action
      exact .swallow pressed escape same pc (by rw [rx])
  · rw [if_neg pressed] at action
    have plain := Bool.not_eq_true _ ▸ pressed
    by_cases ctrl : c = 1
    · rw [if_pos ctrl] at action
      obtain ⟨rx, pc, same⟩ := callCanPop_cases action
      exact .arm plain ctrl same pc (by rw [rx])
    · rw [if_neg ctrl] at action
      obtain ⟨moved, pc, same⟩ := onQueues_cases action
      obtain ⟨idle, rx⟩ := push_step (rx_step moved).2
      refine .pass plain ctrl (same.trans plain) pc ?_
      have before : s.queues.rx.pusher = .idle := idle
      rw [rx, Direction.passed, Direction.passed, before]
      simp [PushPc.byte]

theorem pushStep_passed {d d' : Direction} {free : Bool} (action : d.pushStep free = some d') :
    d'.passed = d.passed := by
  unfold Direction.pushStep at action
  cases pc : d.pusher <;> rw [pc] at action <;> cases action
  case loadTail c head =>
    cases passes : canPush head d.ring.tail <;> simp [Direction.passed, PushPc.byte, pc]
  all_goals simp [Direction.passed, PushPc.byte, pc]

theorem popStep_passed {d d' : Direction} {free : Bool} (action : d.popStep free = some d') :
    d'.passed = d.passed := by
  unfold Direction.popStep at action
  cases pc : d.popper <;> rw [pc] at action <;> cases action <;> rfl

theorem otherStep_uart {key : Option U8} {s t : Machine} (action : s.uartStep key = some t)
    (no_read : s.readByte (.uart key) = none) : OtherStep s t := by
  have polled (call : s.callCanPop = some t) (running : s.pc ≠ .returned 0) : OtherStep s t := by
    obtain ⟨rx, -, same⟩ := callCanPop_cases call
    exact ⟨same, by rw [rx], fun returned => absurd returned running⟩
  have popped {move : Move} {s' : Machine} (moved : s'.onQueues (.tx move) = some t)
      (rx : s'.queues = s.queues) (pressed : s'.ctrlAPressed = s.ctrlAPressed)
      (running : s.pc ≠ .returned 0) : OtherStep s t := by
    obtain ⟨queues, -, same⟩ := onQueues_cases moved
    have kept := (tx_step queues).1
    exact ⟨same.trans pressed, by rw [kept, rx], fun returned => absurd returned running⟩
  unfold Machine.uartStep at action
  cases pc : s.pc with
  | testExit | testMagic =>
      simp only [pc, Option.some.injEq] at action
      subst action
      exact ⟨rfl, rfl, fun returned => by cases pc.symm.trans returned⟩
  | input =>
      simp only [pc] at action
      cases key with
      | none => exact polled action (by simp [pc])
      | some c => simp [Machine.readByte, pc] at no_read
  | push =>
      simp only [pc] at action
      split at action
      · exact polled action (by simp [pc])
      · obtain ⟨moved, -, same⟩ := onQueues_cases action
        exact ⟨same, pushStep_passed (rx_step moved).2, fun returned => by
          cases pc.symm.trans returned⟩
  | canPop =>
      simp only [pc] at action
      split at action
      · split at action
        · exact popped action rfl rfl (by simp [pc])
        · cases action
          exact ⟨rfl, rfl, fun returned => by cases pc.symm.trans returned⟩
      · exact popped action rfl rfl (by simp [pc])
  | pop =>
      simp only [pc] at action
      split at action
      · cases action
        exact ⟨rfl, rfl, fun returned => by cases pc.symm.trans returned⟩
      · exact popped action rfl rfl (by simp [pc])
  | returned value => simp [pc] at action

theorem otherStep {event : Event} {s t : Machine} (action : s.step event = some t)
    (no_read : s.readByte event = none) : OtherStep s t := by
  cases event with
  | uart key => exact otherStep_uart action no_read
  | guest label =>
      obtain ⟨turn, moved⟩ := Option.ite_none_right_eq_some.mp action
      obtain ⟨queues, pc, same⟩ := onQueues_cases moved
      refine ⟨same, ?_, fun returned => pc.trans returned⟩
      cases guestStep_cases turn queues with
      | push _ _ _ rx | pushStep _ rx => rw [rx]
      | poll _ _ rx | pop _ _ _ rx =>
          rw [rx]
          rfl
      | popStep _ _ popped => exact popStep_passed popped
  | exit | magic value =>
      cases action
      exact ⟨rfl, rfl, id⟩

/-! ## The filter is exact -/

structure SessionInv (s : Session) : Prop where
  pressed : s.escaped = false →
    (s.machine.ctrlAPressed = true ↔ ctrlRun s.bytes s.bytes.length % 2 = 1)
  running : s.escaped = false → ∀ i, ¬EscapeAt s.bytes i
  ended : s.escaped = true → s.machine.pc = .returned 0
  last : s.escaped = true → ∀ i, EscapeAt s.bytes i ↔ i + 1 = s.bytes.length
  nonempty : s.escaped = true → s.bytes ≠ []
  passed : s.machine.queues.rx.passed = filtered s.bytes

theorem SessionInv.other {s : Session} {machine : Machine} (h : SessionInv s)
    (step : OtherStep s.machine machine) : SessionInv { s with machine } :=
  ⟨fun running => by rw [step.ctrlAPressed]; exact h.pressed running, h.running,
    fun escaped => step.returned (h.ended escaped), h.last, h.nonempty,
    step.passed.trans h.passed⟩

theorem SessionInv.key {s : Session} {c : U8} {t : Machine} (h : SessionInv s)
    (input : s.machine.pc = .input) (step : KeyStep c s.machine t) :
    SessionInv ⟨t, s.bytes ++ [c], t.pc = .returned 0⟩ := by
  have running : s.escaped = false := by
    by_contra escaped
    cases input.symm.trans (h.ended (Bool.not_eq_false _ ▸ escaped))
  have none := h.running running
  have pressed := h.pressed running
  -- The loop goes on: no `x` after an odd run.
  have goes_on (pc : t.pc ≠ .returned 0)
      (plain : ¬(c = escapeKey ∧ ctrlRun s.bytes s.bytes.length % 2 = 1))
      (flag : t.ctrlAPressed = true ↔ ctrlRun (s.bytes ++ [c]) (s.bytes ++ [c]).length % 2 = 1)
      (passed : t.queues.rx.passed = filtered (s.bytes ++ [c])) :
      SessionInv ⟨t, s.bytes ++ [c], t.pc = .returned 0⟩ := by
    have not_escaped : decide (t.pc = .returned 0) = false := decide_eq_false pc
    have no_escape (i : Nat) : ¬EscapeAt (s.bytes ++ [c]) i := by
      rw [escapeAt_append]
      rintro (before | ⟨-, here⟩)
      · exact none i before
      · exact plain here
    rw [not_escaped]
    exact ⟨fun _ => flag, fun _ => no_escape, fun escaped => Bool.noConfusion escaped,
      fun escaped => Bool.noConfusion escaped, fun escaped => Bool.noConfusion escaped, passed⟩
  cases step with
  | escape armed eq pc passed =>
      have odd := pressed.mp armed
      have escaped : decide (t.pc = .returned 0) = true := decide_eq_true pc
      rw [escaped]
      refine ⟨fun running => Bool.noConfusion running, fun running => Bool.noConfusion running,
        fun _ => pc, fun _ i => ?_, fun _ => by simp, ?_⟩
      · rw [escapeAt_append, List.length_append, List.length_singleton, Nat.add_right_cancel_iff]
        constructor
        · rintro (before | ⟨here, -⟩)
          · exact absurd before (none i)
          · exact here
        · exact fun here => .inr ⟨here, eq, odd⟩
      · rw [filtered_append, if_neg (by omega), List.append_nil]
        exact passed.trans h.passed
  | swallow armed ne flag pc passed =>
      have odd := pressed.mp armed
      refine goes_on (by simp [pc]) (fun here => ne here.1) ?_ ?_
      · rw [ctrlRun_last, flag]
        exact iff_of_false Bool.false_ne_true (by split <;> omega)
      · rw [filtered_append, if_neg (by omega), List.append_nil]
        exact passed.trans h.passed
  | arm unarmed eq flag pc passed =>
      have even : ¬ctrlRun s.bytes s.bytes.length % 2 = 1 := fun odd => by
        rw [pressed.mpr odd] at unarmed
        cases unarmed
      refine goes_on (by simp [pc]) (fun here => even here.2) ?_ ?_
      · rw [ctrlRun_last, flag, if_pos eq]
        exact iff_of_true rfl (by omega)
      · rw [filtered_append, if_neg (fun here => here.1 eq), List.append_nil]
        exact passed.trans h.passed
  | pass unarmed ne flag pc passed =>
      have even : ¬ctrlRun s.bytes s.bytes.length % 2 = 1 := fun odd => by
        rw [pressed.mpr odd] at unarmed
        cases unarmed
      refine goes_on (by simp [pc]) (fun here => even here.2) ?_ ?_
      · rw [ctrlRun_last, flag, if_neg ne]
        simp
      · rw [filtered_append, if_pos ⟨ne, by omega⟩, passed, h.passed]

theorem session_inv {tx rx : Ring} {s : Session} (reachable : (session tx rx).Reachable s) :
    SessionInv s := by
  apply reachable.invariant
  · rintro s ⟨⟨queues, -, plain⟩, bytes, escaped⟩
    have passed : s.machine.queues.rx.passed = [] := by
      rw [queues]
      rfl
    constructor <;> simp_all [EscapeAt, ctrlRun, filtered]
  · intro s t event h _ action
    obtain ⟨machine, moved, rfl⟩ := Option.map_eq_some_iff.mp action
    cases read : s.machine.readByte event with
    | none =>
        exact h.other (otherStep moved read)
    | some c =>
        cases event with
        | uart key =>
            cases key with
            | none => cases read
            | some c' =>
                obtain ⟨input, eq⟩ := Option.ite_none_right_eq_some.mp read
                cases eq
                exact h.key input (keyStep_cases input moved)
        | _ => cases read

structure ExactFilter (s : Session) : Prop where
  escaped : s.escaped = true ↔ ∃ i, EscapeAt s.bytes i
  first : ∀ i, EscapeAt s.bytes i → i + 1 = s.bytes.length
  ended : s.escaped = true → s.machine.pc = .returned 0
  passed : s.machine.queues.rx.passed = filtered s.bytes
  no_ctrl : ctrlA ∉ s.machine.queues.rx.passed

theorem filter_exact {tx rx : Ring} {s : Session} (reachable : (session tx rx).Reachable s) :
    ExactFilter s := by
  have inv := session_inv reachable
  refine ⟨?_, fun i here => ?_, inv.ended, inv.passed, ?_⟩
  · constructor
    · intro escaped
      have some_byte := List.length_pos_of_ne_nil (inv.nonempty escaped)
      exact ⟨s.bytes.length - 1, (inv.last escaped _).mpr (by omega)⟩
    · rintro ⟨i, here⟩
      by_contra running
      exact inv.running (Bool.not_eq_true _ ▸ running) i here
  · by_cases escaped : s.escaped = true
    · exact (inv.last escaped i).mp here
    · exact absurd here (inv.running (Bool.not_eq_true _ ▸ escaped) i)
  · rw [inv.passed, filtered]
    intro member
    obtain ⟨entry, kept, eq⟩ := List.mem_map.mp member
    have passes := (List.mem_filter.mp kept).2
    simp [eq] at passes

def startSession : Session := ⟨startMachine, [], false⟩

theorem filter_exact_escape :
    ∃ s, (session emptyRing emptyRing).run
        ([.uart none, .uart none, .uart (some 65)] ++ List.replicate 12 (.uart none) ++
          [.uart (some 1)] ++ List.replicate 5 (.uart none) ++ [.uart (some 0x78)])
        startSession = some s ∧
      s.bytes = [65, 1, 0x78] ∧ s.escaped = true ∧ ExactFilter s := by
  have run : ∃ s, (session emptyRing emptyRing).run
      ([.uart none, .uart none, .uart (some 65)] ++ List.replicate 12 (.uart none) ++
        [.uart (some 1)] ++ List.replicate 5 (.uart none) ++ [.uart (some 0x78)])
      startSession = some s ∧ s.bytes = [65, 1, 0x78] ∧ s.escaped = true := ⟨_, rfl, rfl, rfl⟩
  obtain ⟨s, run, bytes, escaped⟩ := run
  have start : (session emptyRing emptyRing).Reachable startSession :=
    .start ⟨⟨rfl, rfl, rfl⟩, rfl, rfl⟩
  exact ⟨s, run, bytes, escaped, filter_exact (start.run _ run)⟩

end TtBhLinux.Console
