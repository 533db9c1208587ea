import TtBhLinux.Console.UartLoop

/-!
# Does uart_loop get back to its tests?

The loop guards `pop_char` by `can_pop`, but it calls `push_char` without asking `can_push`. While
it spins there nobody drains tx.
-/

namespace TtBhLinux.Console
open Common

def PushPc.testing : PushPc → Bool
  | .loadHead _ | .loadTail _ _ => true
  | _ => false

structure Direction.Waits (d : Direction) : Prop where
  testing : d.pusher.testing = true
  full : canPush d.ring.head d.ring.tail = false

structure Deadlocked (s : Machine) : Prop where
  uart : s.queues.rx.Waits
  guest : s.queues.tx.Waits

def typed (s : Machine) : Event → Bool
  | .uart (some c) => s.pc = .input && !s.ctrlAPressed && c != 1
  | _ => false

def RoomForKey (s : Machine) (event : Event) : Prop :=
  typed s event = true → canPush s.queues.rx.ring.head s.queues.rx.ring.tail = true

instance (s : Machine) (event : Event) : Decidable (RoomForKey s event) :=
  inferInstanceAs (Decidable (_ → _))

/-! ## Who is in which call -/

/-- A call of `pop_char` that comes after `can_pop` has returned true. -/
def PopPc.prompt : PopPc → Prop
  | .loadHead ready | .loadTail ready _ => ready = true
  | _ => True

structure Calls (s : Machine) : Prop where
  push : s.queues.rx.pusher ≠ .idle → s.pc = .push
  pop : s.queues.tx.popper.isIdle = false → s.pc = .canPop ∨ s.pc = .pop
  prompt : s.queues.tx.popper.prompt
  guest : s.queues.tx.pusher ≠ .idle → s.queues.rx.popper.isIdle = true

theorem tx_step {q q' : Queues} {move : Move} (action : q.step (.tx move) = some q') :
    q'.rx = q.rx ∧ q.tx.step move = some q'.tx := by
  obtain ⟨_, moved⟩ := Option.ite_none_right_eq_some.mp action
  obtain ⟨d, done, rfl⟩ := Option.map_eq_some_iff.mp moved
  exact ⟨rfl, done⟩

theorem rx_step {q q' : Queues} {move : Move} (action : q.step (.rx move) = some q') :
    q'.tx = q.tx ∧ q.rx.step move = some q'.rx := by
  obtain ⟨_, moved⟩ := Option.ite_none_right_eq_some.mp action
  obtain ⟨d, done, rfl⟩ := Option.map_eq_some_iff.mp moved
  exact ⟨rfl, done⟩

theorem push_step {d d' : Direction} {c : U8} (action : d.step (.push c) = some d') :
    d.pusher = .idle ∧ d' = { d with pusher := .loadHead c } := by
  obtain ⟨idle, moved⟩ := Option.ite_none_right_eq_some.mp action
  exact ⟨idle, (Option.some.inj moved).symm⟩

theorem poll_step {d d' : Direction} (action : d.step .poll = some d') :
    d.popper.isIdle = true ∧ d' = { d with popper := .pollHead } := by
  simp only [Direction.step] at action
  split at action <;> cases action
  rename_i idle
  exact ⟨by rw [idle]; rfl, rfl⟩

theorem pop_step {d d' : Direction} (action : d.step .pop = some d') :
    ∃ ready, d.popper = .idle ready ∧ d' = { d with popper := .loadHead ready } := by
  simp only [Direction.step] at action
  split at action <;> cases action
  rename_i ready idle
  exact ⟨ready, idle, rfl⟩

theorem pushStep_popper {d d' : Direction} {free : Bool} (action : d.pushStep free = some d') :
    d'.popper = d.popper ∧ d.pusher ≠ .idle := by
  unfold Direction.pushStep at action
  cases pc : d.pusher <;> rw [pc] at action <;> cases action <;> simp

theorem popStep_pusher {d d' : Direction} {free : Bool} (action : d.popStep free = some d') :
    d'.pusher = d.pusher ∧ d.popper.isIdle = false ∧ (d.popper.prompt → d'.popper.prompt) := by
  unfold Direction.popStep at action
  cases pc : d.popper <;> rw [pc] at action <;> cases action
  case loadTail ready head =>
    by_cases found : canPop head d.ring.tail = true
    · simp [found, PopPc.isIdle, PopPc.prompt]
    · simp [found, PopPc.isIdle, PopPc.prompt]
  all_goals simp [PopPc.isIdle, PopPc.prompt]

inductive GuestStep (q q' : Queues) : Prop
  | push (c : U8) : q.rx.popper.isIdle = true → q.tx.pusher = .idle → q'.rx = q.rx →
      q'.tx = { q.tx with pusher := .loadHead c } → GuestStep q q'
  | pushStep (free : Bool) : q'.rx = q.rx → q.tx.pushStep free = some q'.tx → GuestStep q q'
  | poll : q.tx.pusher = .idle → q'.tx = q.tx → q'.rx = { q.rx with popper := .pollHead } →
      GuestStep q q'
  | pop (ready : Bool) : q.tx.pusher = .idle → q'.tx = q.tx →
      q'.rx = { q.rx with popper := .loadHead ready } → GuestStep q q'
  | popStep (free : Bool) : q'.tx = q.tx → q.rx.popStep free = some q'.rx → GuestStep q q'

theorem guestStep_cases {label : Label} {q q' : Queues} (turn : guestTurn q label = true)
    (moved : q.step label = some q') : GuestStep q q' := by
  cases label with
  | tx move =>
      obtain ⟨rx, done⟩ := tx_step moved
      cases move with
      | push c =>
          obtain ⟨idle, tx⟩ := push_step done
          exact .push c turn idle rx tx
      | pushStep free => exact .pushStep free rx done
      | poll | pop | popStep free => cases turn
  | rx move =>
      obtain ⟨tx, done⟩ := rx_step moved
      cases move with
      | push c | pushStep free => cases turn
      | poll => exact .poll (of_decide_eq_true turn) tx (poll_step done).2
      | pop =>
          obtain ⟨ready, -, rx⟩ := pop_step done
          exact .pop ready (of_decide_eq_true turn) tx rx
      | popStep free => exact .popStep free tx done

theorem Calls.resting {s : Machine} (h : Calls s) (not_push : s.pc ≠ .push)
    (not_poll : s.pc ≠ .canPop) (not_pop : s.pc ≠ .pop) :
    s.queues.rx.pusher = .idle ∧ s.queues.tx.popper.isIdle = true := by
  constructor
  · by_contra busy
    exact not_push (h.push busy)
  · by_contra busy
    rcases h.pop (Bool.not_eq_true _ ▸ busy) with poll | pop
    · exact not_poll poll
    · exact not_pop pop

theorem Calls.between {s t : Machine} (h : Calls s) (same : t.queues = s.queues)
    (push : s.queues.rx.pusher = .idle) (pop : s.queues.tx.popper.isIdle = true) : Calls t := by
  constructor
  · rw [same]
    exact fun busy => absurd push busy
  · rw [same, pop]
    exact fun busy => Bool.noConfusion busy
  · rw [same]
    exact h.prompt
  · rw [same]
    exact h.guest

theorem Calls.step_uart {key : Option U8} {s t : Machine} (h : Calls s) (step : UartStep key s t) :
    Calls t := by
  cases step with
  | enter pc next same =>
      obtain ⟨push, pop⟩ := h.resting (by simp [pc]) (by simp [pc]) (by simp [pc])
      exact h.between same push pop
  | look pc next same =>
      obtain ⟨push, pop⟩ := h.resting (by simp [pc]) (by simp [pc]) (by simp [pc])
      exact h.between same push pop
  | leave not_push _ resting next same =>
      have push : s.queues.rx.pusher = .idle := by
        by_contra busy
        exact not_push (h.push busy)
      have pop : s.queues.tx.popper.isIdle = true := by
        by_contra busy
        exact busy (resting (h.pop (Bool.not_eq_true _ ▸ busy)))
      exact h.between same push pop
  | poll from_call next moved =>
      obtain ⟨rx, polled⟩ := tx_step moved
      obtain ⟨idle, tx⟩ := poll_step polled
      have push : s.queues.rx.pusher = .idle := by
        rcases from_call with input | ⟨_, done⟩
        · by_contra busy
          cases input.symm.trans (h.push busy)
        · exact done
      constructor
      · rw [rx]
        exact fun busy => absurd push busy
      · exact fun _ => .inl next
      · rw [tx]
        trivial
      · rw [tx, rx]
        exact h.guest
  | push c pc plain eq other next moved =>
      obtain ⟨tx, pushed⟩ := rx_step moved
      obtain ⟨idle, rx⟩ := push_step pushed
      obtain ⟨-, pop⟩ := h.resting (by simp [pc]) (by simp [pc]) (by simp [pc])
      constructor
      · exact fun _ => next
      · rw [tx, pop]
        exact fun busy => Bool.noConfusion busy
      · rw [tx]
        exact h.prompt
      · rw [tx, rx]
        exact h.guest
  | pushStep pc busy next moved =>
      obtain ⟨tx, pushed⟩ := rx_step moved
      obtain ⟨popper, -⟩ := pushStep_popper pushed
      have pop : s.queues.tx.popper.isIdle = true := by
        by_contra busy
        rcases h.pop (Bool.not_eq_true _ ▸ busy) with poll | pop
        · cases pc.symm.trans poll
        · cases pc.symm.trans pop
      constructor
      · exact fun _ => next
      · rw [tx, pop]
        exact fun busy => Bool.noConfusion busy
      · rw [tx]
        exact h.prompt
      · rw [tx, popper]
        exact h.guest
  | pop pc ready next moved =>
      obtain ⟨rx, popped⟩ := tx_step moved
      obtain ⟨found, idle, tx⟩ := pop_step popped
      constructor
      · rw [rx]
        intro busy
        cases pc.symm.trans (h.push busy)
      · exact fun _ => .inr next
      · rw [tx]
        cases ready.symm.trans idle
        rfl
      · rw [tx, rx]
        exact h.guest
  | popStep pc busy next moved =>
      obtain ⟨rx, popped⟩ := tx_step moved
      obtain ⟨pusher, -, prompt⟩ := popStep_pusher popped
      constructor
      · rw [rx, next]
        exact h.push
      · rw [next]
        exact fun _ => pc
      · exact prompt h.prompt
      · rw [rx, pusher]
        exact h.guest

theorem Calls.guest_moves {s t : Machine} (h : Calls s) (same : t.pc = s.pc)
    (pusher : t.queues.rx.pusher = s.queues.rx.pusher)
    (popper : t.queues.tx.popper = s.queues.tx.popper)
    (guest : t.queues.tx.pusher ≠ .idle → t.queues.rx.popper.isIdle = true) : Calls t := by
  refine ⟨?_, ?_, ?_, guest⟩
  · rw [pusher, same]
    exact h.push
  · rw [popper, same]
    exact h.pop
  · rw [popper]
    exact h.prompt

theorem Calls.step_guest {s t : Machine} (h : Calls s) (step : GuestStep s.queues t.queues)
    (same : t.pc = s.pc) : Calls t := by
  cases step with
  | push c resting _ rx tx =>
      exact h.guest_moves same (by rw [rx]) (by rw [tx]) fun _ => rx ▸ resting
  | pushStep free rx moved =>
      obtain ⟨popper, busy⟩ := pushStep_popper moved
      exact h.guest_moves same (by rw [rx]) popper fun _ => rx ▸ h.guest busy
  | poll quiet tx rx =>
      exact h.guest_moves same (by rw [rx]) (by rw [tx]) fun busy => absurd (tx ▸ quiet) busy
  | pop _ quiet tx rx =>
      exact h.guest_moves same (by rw [rx]) (by rw [tx]) fun busy => absurd (tx ▸ quiet) busy
  | popStep free tx moved =>
      obtain ⟨pusher, busy, -⟩ := popStep_pusher moved
      refine h.guest_moves same pusher (by rw [tx]) fun pushing => ?_
      rw [h.guest (tx ▸ pushing)] at busy
      cases busy

theorem Calls.step {event : Event} {s t : Machine} (h : Calls s) (action : s.step event = some t) :
    Calls t := by
  cases event with
  | uart key => exact h.step_uart (uartStep_cases action)
  | guest label =>
      obtain ⟨turn, moved⟩ := Option.ite_none_right_eq_some.mp action
      obtain ⟨queues, same⟩ := onQueues_eq moved
      exact h.step_guest (guestStep_cases turn queues) same
  | exit =>
      cases action
      exact ⟨h.push, h.pop, h.prompt, h.guest⟩
  | magic value =>
      cases action
      exact ⟨h.push, h.pop, h.prompt, h.guest⟩

/-! ## push_char is called when there is room -/

def Room (s : Machine) : Prop :=
  s.queues.rx.pusher.testing = true → s.queues.rx.ring.HasRoom

theorem pushStep_testing {d d' : Direction} {free : Bool} (action : d.pushStep free = some d')
    (testing : d'.pusher.testing = true) : d.pusher.testing = true ∧ d'.ring = d.ring := by
  unfold Direction.pushStep at action
  cases pc : d.pusher <;> rw [pc] at action <;> cases action <;>
    first | exact ⟨rfl, rfl⟩ | cases testing

theorem popStep_room {start : Ring} {d d' : Direction} {free : Bool} (h : d.Inv start)
    (action : d.popStep free = some d') (room : d.ring.HasRoom) : d'.ring.HasRoom := by
  have own := h.popper
  unfold Direction.popStep at action
  cases pc : d.popper <;> rw [pc] at action own <;> cases action
  case storeTail c tail =>
    obtain ⟨rfl, nonempty, -⟩ := own
    have shrunk := Ring.popped_count free nonempty
    simp only [Ring.HasRoom, Ring.popped] at room shrunk ⊢
    omega
  all_goals exact room

theorem hasRoom_iff (r : Ring) : r.HasRoom ↔ canPush r.head r.tail = true :=
  (canPush_iff r.head r.tail).symm

theorem Room.step {rx : Ring} {event : Event} {s t : Machine} (h : Room s)
    (inv : s.queues.rx.Inv rx) (room : RoomForKey s event) (action : s.step event = some t) :
    Room t := by
  have kept (same : t.queues.rx = s.queues.rx) : Room t := by
    rw [Room, same]
    exact h
  cases event with
  | uart key =>
      cases uartStep_cases action with
      | enter _ _ same | look _ _ same | leave _ _ _ _ same => exact kept (by rw [same])
      | poll _ _ moved | pop _ _ _ moved | popStep _ _ _ moved => exact kept (tx_step moved).1
      | push c pc plain eq other next moved =>
          subst eq
          obtain ⟨-, rx⟩ := push_step (rx_step moved).2
          rw [Room, rx]
          have types : typed s (.uart (some c)) = true := by simpa [typed, pc, plain] using other
          exact fun _ => (hasRoom_iff _).mpr (room types)
      | pushStep _ _ _ moved =>
          intro testing
          obtain ⟨before, ring⟩ := pushStep_testing (rx_step moved).2 testing
          rw [ring]
          exact h before
  | guest label =>
      obtain ⟨turn, moved⟩ := Option.ite_none_right_eq_some.mp action
      cases guestStep_cases turn (onQueues_eq moved).1 with
      | push _ _ _ rx | pushStep _ rx => exact kept rx
      | poll _ _ rx | pop _ _ _ rx =>
          rw [Room, rx]
          exact h
      | popStep free _ popped =>
          intro testing
          rw [(popStep_pusher popped).1] at testing
          exact popStep_room inv popped (h testing)
  | exit =>
      cases action
      exact h
  | magic value =>
      cases action
      exact h

/-! ## Steps that are left until the tests -/

def PushPc.left : PushPc → Nat
  | .idle => 0
  | .loadHead _ => 6
  | .loadTail _ _ => 5
  | .loadSlot _ => 4
  | .storeSlot _ _ => 3
  | .reloadHead _ => 2
  | .storeHead _ _ => 1

def PopPc.left : PopPc → Nat
  | .idle _ => 0
  | .pollHead => 2
  | .pollTail _ => 1
  | .loadHead _ => 6
  | .loadTail _ _ => 5
  | .loadSlot => 4
  | .readSlot _ => 3
  | .reloadTail _ => 2
  | .storeTail _ _ => 1

def Machine.left (s : Machine) : Nat :=
  match s.pc with
  | .testExit | .returned _ => 0
  | .testMagic => 19
  | .input => 18
  | .push => 11 + s.queues.rx.pusher.left
  | .canPop => 8 + s.queues.tx.popper.left
  | .pop => 1 + s.queues.tx.popper.left

theorem pushStep_left {start : Ring} {d d' : Direction} {free : Bool} (h : d.Inv start)
    (room : d.pusher.testing = true → d.ring.HasRoom) (action : d.pushStep free = some d') :
    d'.pusher.left < d.pusher.left := by
  have own := h.pusher
  unfold Direction.pushStep at action
  cases pc : d.pusher <;> rw [pc] at action own room <;> cases action
  case loadTail c head =>
    cases own
    have passes := (hasRoom_iff _).mp (room rfl)
    simp [passes, PushPc.left]
  all_goals simp [PushPc.left]

theorem popStep_left {start : Ring} {d d' : Direction} {free : Bool} (h : d.Inv start)
    (prompt : d.popper.prompt) (action : d.popStep free = some d') :
    d'.popper.left < d.popper.left := by
  have own := h.popper
  unfold Direction.popStep at action
  cases pc : d.popper <;> rw [pc] at action own prompt <;> cases action
  case loadTail ready head =>
    have found := (canPop_iff _ _).mpr (own.2 prompt)
    simp [found, PopPc.left]
  all_goals simp [PopPc.left]

theorem left_uart {tx rx : Ring} {key : Option U8} {s t : Machine} (inv : QueuesInv tx rx s.queues)
    (calls : Calls s) (room : Room s) (away : s.pc ≠ .testExit) (step : UartStep key s t) :
    t.left < s.left := by
  cases step with
  | enter pc _ _ => exact absurd pc away
  | look pc next _ => simp [Machine.left, pc, next]
  | leave not_push running _ next _ =>
      have done : t.left = 0 := by
        rcases next with next | ⟨value, next⟩
        · simp [Machine.left, next]
        · simp [Machine.left, next]
      rw [done, Machine.left]
      cases pc : s.pc with
      | testExit => exact absurd pc away
      | push => exact absurd pc not_push
      | returned value => exact absurd pc (running value)
      | testMagic | input | canPop | pop => simp
  | poll from_call next moved =>
      obtain ⟨-, tx⟩ := poll_step (tx_step moved).2
      rcases from_call with pc | ⟨pc, idle⟩
      · simp [Machine.left, pc, next, tx, PopPc.left]
      · simp [Machine.left, pc, idle, next, tx, PopPc.left, PushPc.left]
  | push c pc _ _ _ next moved =>
      obtain ⟨-, rx⟩ := push_step (rx_step moved).2
      simp [Machine.left, pc, next, rx, PushPc.left]
  | pushStep pc _ next moved =>
      have less := pushStep_left inv.rxInv room (rx_step moved).2
      simpa [Machine.left, pc, next] using less
  | pop pc ready next moved =>
      obtain ⟨_, -, tx⟩ := pop_step (tx_step moved).2
      simp [Machine.left, pc, ready, next, tx, PopPc.left]
  | popStep pc _ next moved =>
      have less := popStep_left inv.txInv calls.prompt (tx_step moved).2
      rcases pc with pc | pc
      · simpa [Machine.left, pc, next] using less
      · simpa [Machine.left, pc, next] using less

def Event.isUart : Event → Bool
  | .uart _ => true
  | _ => false

theorem left_other {event : Event} {s t : Machine} (other : event.isUart = false)
    (action : s.step event = some t) : t.left = s.left := by
  have same (pc : t.pc = s.pc) (push : t.queues.rx.pusher = s.queues.rx.pusher)
      (pop : t.queues.tx.popper = s.queues.tx.popper) : t.left = s.left := by
    rw [Machine.left, Machine.left, pc, push, pop]
  cases event with
  | uart key => cases other
  | guest label =>
      obtain ⟨turn, moved⟩ := Option.ite_none_right_eq_some.mp action
      obtain ⟨queues, pc⟩ := onQueues_eq moved
      cases guestStep_cases turn queues with
      | push _ _ _ rx tx => exact same pc (by rw [rx]) (by rw [tx])
      | pushStep _ rx pushed => exact same pc (by rw [rx]) (pushStep_popper pushed).1
      | poll _ tx rx | pop _ _ tx rx => exact same pc (by rw [rx]) (by rw [tx])
      | popStep _ tx popped => exact same pc (popStep_pusher popped).1 (by rw [tx])
  | exit =>
      cases action
      rfl
  | magic value =>
      cases action
      rfl

structure MachineInv (tx rx : Ring) (s : Machine) : Prop where
  queues : (console tx rx).Reachable s.queues
  calls : Calls s

theorem MachineInv.initial {tx rx : Ring} {s : Machine} (h : (uartLoop tx rx).init s) :
    MachineInv tx rx s := by
  obtain ⟨fresh, pc, plain⟩ := h
  refine ⟨.start fresh, ?_⟩
  constructor <;> simp [fresh, Direction.fresh, PopPc.isIdle, PopPc.prompt]

theorem MachineInv.step {tx rx : Ring} {event : Event} {s t : Machine} (h : MachineInv tx rx s)
    (action : s.step event = some t) : MachineInv tx rx t := by
  refine ⟨?_, h.calls.step action⟩
  rcases step_queues action with same | ⟨label, moved⟩
  · exact same ▸ h.queues
  · exact .next h.queues trivial moved

theorem room_inv {tx rx : Ring} {s : Machine}
    (reachable : (uartLoop tx rx).ReachableUnder RoomForKey s) : MachineInv tx rx s ∧ Room s := by
  apply reachable.invariant
  · rintro s init
    refine ⟨.initial init, ?_⟩
    rw [Room, init.1]
    exact fun testing => Bool.noConfusion testing
  · rintro s t event ⟨inv, room⟩ guard action
    exact ⟨inv.step action, room.step (queues_inv inv.queues).rxInv guard action⟩

def AtTest (s : Machine) : Prop := s.pc = .testExit ∨ ∃ value, s.pc = .returned value

theorem gets_back {tx rx : Ring} {s t : Machine} (inv : MachineInv tx rx s) (room : Room s)
    {events : List Event} (run : (uartLoop tx rx).runUnder RoomForKey events s = some t)
    (long : s.left < events.countP Event.isUart) :
    ∃ before after u, events = before ++ after ∧ (uartLoop tx rx).run before s = some u ∧
      AtTest u := by
  induction events generalizing s with
  | nil => exact absurd long (Nat.not_lt_zero _)
  | cons event rest ih =>
      by_cases here : AtTest s
      · exact ⟨[], event :: rest, s, rfl, rfl, here⟩
      · obtain ⟨guard, run⟩ := Option.ite_none_right_eq_some.mp run
        obtain ⟨u, action, run⟩ := Option.bind_eq_some_iff.mp run
        have less : u.left < rest.countP Event.isUart := by
          rw [List.countP_cons] at long
          cases own : event.isUart with
          | true =>
              have down : u.left < s.left := by
                cases event with
                | uart key =>
                    exact left_uart (queues_inv inv.queues) inv.calls room
                      (fun pc => here (.inl pc)) (uartStep_cases action)
                | _ => cases own
              simp only [own, if_true] at long
              omega
          | false =>
              rw [left_other own action]
              simpa [own] using long
        obtain ⟨before, after, w, cut, reach, back⟩ := ih (inv.step action)
          (room.step (queues_inv inv.queues).rxInv guard action) run less
        refine ⟨event :: before, after, w, by rw [cut]; rfl, ?_, back⟩
        exact Option.bind_eq_some_iff.mpr ⟨u, action, reach⟩

theorem pushStep_enabled {d : Direction} (busy : d.pusher ≠ .idle) (free : Bool) :
    ∃ d', d.pushStep free = some d' := by
  unfold Direction.pushStep
  cases pc : d.pusher with
  | idle => exact absurd pc busy
  | _ => exact ⟨_, rfl⟩

theorem popStep_enabled {d : Direction} (busy : d.popper.isIdle = false) (free : Bool) :
    ∃ d', d.popStep free = some d' := by
  unfold Direction.popStep
  cases pc : d.popper with
  | idle ready =>
      rw [pc] at busy
      cases busy
  | _ => exact ⟨_, rfl⟩

theorem left_le (s : Machine) : s.left < 20 := by
  have push : s.queues.rx.pusher.left ≤ 6 := by cases s.queues.rx.pusher <;> simp [PushPc.left]
  have pop : s.queues.tx.popper.left ≤ 6 := by cases s.queues.tx.popper <;> simp [PopPc.left]
  unfold Machine.left
  cases s.pc <;> simp only <;> omega

theorem onQueues_tx {s : Machine} {move : Move} {d : Direction}
    (turn : hostTurn s.queues (.tx move) = true) (moved : s.queues.tx.step move = some d) :
    s.onQueues (.tx move) = some (s.withTx d) := by
  rw [Machine.onQueues, Queues.step, if_pos turn, moved]
  rfl

theorem onQueues_rx {s : Machine} {move : Move} {d : Direction}
    (turn : hostTurn s.queues (.rx move) = true) (moved : s.queues.rx.step move = some d) :
    s.onQueues (.rx move) = some (s.withRx d) := by
  rw [Machine.onQueues, Queues.step, if_pos turn, moved]
  rfl

theorem push_eq {d : Direction} (idle : d.pusher = .idle) (c : U8) :
    d.step (.push c) = some { d with pusher := .loadHead c } := by
  simp only [Direction.step, idle, if_true]

theorem pop_eq {d : Direction} {ready : Bool} (idle : d.popper = .idle ready) :
    d.step .pop = some { d with popper := .loadHead ready } := by
  simp only [Direction.step, idle]

theorem poll_eq {d : Direction} {ready : Bool} (idle : d.popper = .idle ready) :
    d.step .poll = some { d with popper := .pollHead } := by
  simp only [Direction.step, idle]

theorem callCanPop_eq {s : Machine} {ready : Bool} (push : s.queues.rx.pusher = .idle)
    (pop : s.queues.tx.popper = .idle ready) : s.callCanPop =
      some ({ s with pc := .canPop }.withTx { s.queues.tx with popper := .pollHead }) := by
  rw [Machine.callCanPop]
  exact onQueues_tx (decide_eq_true push) (poll_eq pop)

theorem popStep_runs {s : Machine} (busy : s.queues.tx.popper.isIdle = false) :
    ∃ t, s.onQueues (.tx (.popStep false)) = some t := by
  obtain ⟨d, moved⟩ := popStep_enabled busy false
  exact ⟨_, onQueues_tx rfl moved⟩

theorem PopPc.exists_idle {pc : PopPc} (idle : pc.isIdle = true) : ∃ ready, pc = .idle ready := by
  cases pc with
  | idle ready => exact ⟨ready, rfl⟩
  | _ => cases idle

theorem uart_enabled {s : Machine} (calls : Calls s) (key : Option U8)
    (running : ∀ value, s.pc ≠ .returned value) : ∃ t, s.step (.uart key) = some t := by
  show ∃ t, s.uartStep key = some t
  unfold Machine.uartStep
  cases pc : s.pc with
  | testExit => exact ⟨_, rfl⟩
  | testMagic => exact ⟨_, rfl⟩
  | input =>
      obtain ⟨push, pop⟩ := calls.resting (by simp [pc]) (by simp [pc]) (by simp [pc])
      obtain ⟨ready, idle⟩ := PopPc.exists_idle pop
      cases key with
      | none => exact ⟨_, callCanPop_eq push idle⟩
      | some c =>
          by_cases armed : s.ctrlAPressed = true
          · by_cases quit : c = 0x78
            · exact ⟨{ s with pc := .returned 0 }, by simp [armed, quit]⟩
            · simp only [armed, if_true, quit, if_false]
              exact ⟨_, callCanPop_eq push idle⟩
          · by_cases prefix_key : c = 1
            · simp only [armed, prefix_key, if_true]
              exact ⟨_, callCanPop_eq push idle⟩
            · simp only [armed, prefix_key, if_false]
              exact ⟨_, onQueues_rx pop (push_eq push c)⟩
  | push =>
      by_cases done : s.queues.rx.pusher = .idle
      · have pop : s.queues.tx.popper.isIdle = true := by
          by_contra busy
          rcases calls.pop (Bool.not_eq_true _ ▸ busy) with poll | pop
          · cases pc.symm.trans poll
          · cases pc.symm.trans pop
        obtain ⟨ready, idle⟩ := PopPc.exists_idle pop
        simp only [done, if_true]
        exact ⟨_, callCanPop_eq done idle⟩
      · simp only [done, if_false]
        obtain ⟨d, moved⟩ := pushStep_enabled done false
        exact ⟨_, onQueues_rx rfl moved⟩
  | canPop =>
      have push : s.queues.rx.pusher = .idle := by
        by_contra busy
        cases pc.symm.trans (calls.push busy)
      cases popper : s.queues.tx.popper with
      | idle ready =>
          cases ready with
          | true => exact ⟨_, onQueues_tx (decide_eq_true push) (pop_eq popper)⟩
          | false => exact ⟨_, rfl⟩
      | _ => exact popStep_runs (by rw [popper]; rfl)
  | pop =>
      cases popper : s.queues.tx.popper with
      | idle ready => exact ⟨_, rfl⟩
      | _ => exact popStep_runs (by rw [popper]; rfl)
  | returned value => exact absurd pc (running value)

theorem pushStep_waits {start : Ring} {d d' : Direction} {free : Bool} (h : d.Inv start)
    (waits : d.Waits) (action : d.pushStep free = some d') : d'.Waits := by
  obtain ⟨testing, full⟩ := waits
  have own := h.pusher
  unfold Direction.pushStep at action
  cases pc : d.pusher <;> rw [pc] at action own testing <;> cases action <;> try cases testing
  case loadHead c => exact ⟨rfl, full⟩
  case loadTail c head =>
    cases own
    rw [full]
    exact ⟨rfl, full⟩

theorem Direction.Waits.busy {d : Direction} (waits : d.Waits) : d.pusher ≠ .idle := by
  intro idle
  have testing := waits.testing
  rw [idle] at testing
  cases testing

/-- Neither thread can free the other. -/
theorem deadlocked_step {tx rx : Ring} {event : Event} {s t : Machine} (inv : MachineInv tx rx s)
    (deadlocked : Deadlocked s) (action : s.step event = some t) : Deadlocked t := by
  obtain ⟨uart, guest⟩ := deadlocked
  have console := queues_inv inv.queues
  have pushing := inv.calls.push uart.busy
  have resting := inv.calls.guest guest.busy
  cases event with
  | uart key =>
      cases uartStep_cases action with
      | enter pc | look pc | push _ pc | pop pc => cases pushing.symm.trans pc
      | leave not_push => exact absurd pushing not_push
      | poll from_call =>
          rcases from_call with pc | ⟨_, idle⟩
          · cases pushing.symm.trans pc
          · exact absurd idle uart.busy
      | pushStep _ _ _ moved =>
          obtain ⟨tx, done⟩ := rx_step moved
          exact ⟨pushStep_waits console.rxInv uart done, tx ▸ guest⟩
      | popStep pc =>
          rcases pc with pc | pc
          · cases pushing.symm.trans pc
          · cases pushing.symm.trans pc
  | guest label =>
      obtain ⟨turn, moved⟩ := Option.ite_none_right_eq_some.mp action
      cases guestStep_cases turn (onQueues_eq moved).1 with
      | push _ _ idle => exact absurd idle guest.busy
      | pushStep _ rx pushed => exact ⟨rx ▸ uart, pushStep_waits console.txInv guest pushed⟩
      | poll quiet | pop _ quiet => exact absurd quiet guest.busy
      | popStep _ _ popped =>
          have busy := (popStep_pusher popped).2.1
          rw [resting] at busy
          cases busy
  | exit =>
      cases action
      exact ⟨uart, guest⟩
  | magic value =>
      cases action
      exact ⟨uart, guest⟩

/-! ## How a deadlock comes about -/

def Direction.written (d : Direction) (c : U8) : Direction := { d with
  pusher := .idle
  ring := (d.ring.store c).pushed false
  pushed := d.pushed ++ [c] }

theorem push_call {P : Direction → Prop}
    (step : ∀ d d', P d → d.pushStep false = some d' → P d') {d : Direction} {c : U8}
    (room : d.ring.HasRoom) (called : P { d with pusher := .loadHead c }) : P (d.written c) := by
  have passes := (hasRoom_iff _).mp room
  have loaded : P { d with pusher := .loadTail c d.ring.head } := step _ _ called rfl
  have tested : P { d with pusher := .loadSlot c } :=
    step _ _ loaded (by simp only [Direction.pushStep, passes, if_true])
  have chosen : P { d with pusher := .storeSlot c d.ring.head } := step _ _ tested rfl
  have stored : P { d with pusher := .reloadHead c, ring := d.ring.store c } :=
    step _ _ chosen rfl
  have reloaded : P { d with pusher := .storeHead c d.ring.head, ring := d.ring.store c } :=
    step _ _ stored rfl
  exact step _ _ reloaded rfl

theorem written_count {d : Direction} (room : d.ring.HasRoom) (c : U8) :
    (d.written c).ring.count = d.ring.count + 1 :=
  @Ring.pushed_count (d.ring.store c) false room

theorem waits_of_count {d : Direction} (full : d.ring.count + 1 = slots) (c : U8) :
    ({ d with pusher := .loadHead c } : Direction).Waits := by
  refine ⟨rfl, ?_⟩
  by_contra room
  have fits := (hasRoom_iff d.ring).mpr (Bool.not_eq_false _ ▸ room)
  rw [Ring.HasRoom] at fits
  omega

section Fill
variable {tx rx : Ring}

theorem guest_push {s : Machine} (resting : s.queues.rx.popper.isIdle = true)
    (quiet : s.queues.tx.pusher = .idle) (c : U8) :
    (uartLoop tx rx).step (.guest (.tx (.push c))) s =
      some (s.withTx { s.queues.tx with pusher := .loadHead c }) := by
  show (if s.queues.rx.popper.isIdle = true then s.onQueues (.tx (.push c)) else none) = _
  rw [if_pos resting]
  exact onQueues_tx rfl (push_eq quiet c)

theorem guest_pushStep {s : Machine} {d d' : Direction} {free : Bool}
    (moved : d.pushStep free = some d') :
    (uartLoop tx rx).step (.guest (.tx (.pushStep free))) (s.withTx d) = some (s.withTx d') :=
  @onQueues_tx (s.withTx d) (.pushStep free) d' rfl moved

theorem waiting_deadlocks (n : Nat) {s : Machine} (uart : s.queues.rx.Waits)
    (quiet : s.queues.tx.pusher = .idle) (resting : s.queues.rx.popper.isIdle = true)
    (left : s.queues.tx.ring.count + n + 1 = slots) :
    ∃ t, (uartLoop tx rx).Leads s t ∧ Deadlocked t := by
  induction n generalizing s with
  | zero =>
      have called := (System.Leads.refl s).next (@guest_push tx rx s resting quiet 0)
      exact ⟨_, called, uart, waits_of_count left 0⟩
  | succ n ih =>
      have room : s.queues.tx.ring.HasRoom := by
        rw [Ring.HasRoom]
        omega
      have called : (uartLoop tx rx).Leads s (s.withTx { s.queues.tx with pusher := .loadHead 0 }) :=
        (System.Leads.refl s).next (guest_push resting quiet 0)
      have written : (uartLoop tx rx).Leads s (s.withTx (s.queues.tx.written 0)) :=
        @push_call (fun d => (uartLoop tx rx).Leads s (s.withTx d))
          (fun _ _ leads moved => leads.next (guest_pushStep moved)) _ 0 room called
      have count := written_count room 0
      obtain ⟨t, leads, deadlocked⟩ := @ih (s.withTx (s.queues.tx.written 0)) uart rfl resting (by
        show (s.queues.tx.written 0).ring.count + n + 1 = slots
        omega)
      exact ⟨t, written.trans leads, deadlocked⟩

theorem typed_waits {s t : Machine} {event : Event} (full : ¬RoomForKey s event)
    (action : s.step event = some t) : t.queues.rx.Waits ∧ t.queues.tx = s.queues.tx ∧
      t.queues.rx.popper = s.queues.rx.popper := by
  rw [RoomForKey, Classical.not_imp] at full
  obtain ⟨types, full⟩ := full
  cases event with
  | uart key =>
      cases key with
      | none => cases types
      | some c =>
          simp only [typed, Bool.and_eq_true, decide_eq_true_eq, Bool.not_eq_true',
            bne_iff_ne] at types
          obtain ⟨⟨pc, plain⟩, other⟩ := types
          have pushed :
              { s with pc := .push, ctrlAPressed := false }.onQueues (.rx (.push c)) = some t := by
            simp only [Machine.step, Machine.uartStep, pc, plain, Bool.false_eq_true, if_false,
              if_neg other] at action
            exact action
          obtain ⟨tx, done⟩ := rx_step (onQueues_eq pushed).1
          obtain ⟨-, rx⟩ := push_step done
          rw [rx]
          exact ⟨⟨rfl, Bool.not_eq_true _ ▸ full⟩, tx, rfl⟩
  | _ => cases types

end Fill

structure Live (tx rx : Ring) (s : Machine) : Prop where
  free : ¬Deadlocked s
  enabled : ∀ key, (∀ value, s.pc ≠ .returned value) → ∃ t, s.step (.uart key) = some t
  back : ∀ events t, (uartLoop tx rx).runUnder RoomForKey events s = some t →
    20 ≤ events.countP Event.isUart → ∃ before after u, events = before ++ after ∧
      (uartLoop tx rx).run before s = some u ∧ AtTest u

theorem live_of_room {tx rx : Ring} {s : Machine} (inv : MachineInv tx rx s) (room : Room s) :
    Live tx rx s := by
  refine ⟨fun deadlocked => ?_, uart_enabled inv.calls, fun events t run long => ?_⟩
  · have fits := (hasRoom_iff _).mp (room deadlocked.uart.testing)
    rw [deadlocked.uart.full] at fits
    cases fits
  · exact gets_back inv room run ((left_le s).trans_le long)

/-- The first call of `push_char` without room lets a guest that is in no call bring about a
deadlock. -/
theorem uart_loop_live (tx rx : Ring) (s : Machine)
    (reachable : (uartLoop tx rx).ReachableUnder RoomForKey s) :
    Live tx rx s ∧ ∀ event t, ¬RoomForKey s event → s.step event = some t →
      s.queues.tx.pusher = .idle → s.queues.rx.popper.isIdle = true →
      ∃ u, (uartLoop tx rx).Leads t u ∧ Deadlocked u := by
  obtain ⟨inv, room⟩ := room_inv reachable
  refine ⟨live_of_room inv room, fun event t full action quiet resting => ?_⟩
  obtain ⟨waits, tx_same, popper⟩ := typed_waits full action
  have below := t.queues.tx.ring.count_lt
  exact waiting_deadlocks (slots - 1 - t.queues.tx.ring.count) waits (by rw [tx_same, quiet])
    (by rw [popper, resting]) (by omega)

/-! ## Four thousand keys -/

structure AtInput (s : Machine) (n : Nat) : Prop where
  pc : s.pc = .input
  plain : s.ctrlAPressed = false
  stay : s.exitThreadFlag = false
  magic : s.magic = virtualUartMagic
  push : s.queues.rx.pusher = .idle
  poll : s.queues.tx.popper = .idle false
  quiet : s.queues.tx.pusher = .idle
  resting : s.queues.rx.popper.isIdle = true
  empty : s.queues.tx.ring.count = 0
  count : s.queues.rx.ring.count = n

section Keys
variable {tx rx : Ring}

theorem uart_step_eq (key : Option U8) (s : Machine) :
    (uartLoop tx rx).step (.uart key) s = s.uartStep key := rfl

theorem uart_push {s : Machine} {n : Nat} (input : AtInput s n) {c : U8} (other : c ≠ 1) :
    (uartLoop tx rx).step (.uart (some c)) s =
      some ({ s with pc := .push }.withRx { s.queues.rx with pusher := .loadHead c }) := by
  have idle : s.queues.tx.popper.isIdle = true := by rw [input.poll]; rfl
  simp only [uart_step_eq, Machine.uartStep, input.pc, input.plain, Bool.false_eq_true, if_false,
    if_neg other]
  exact onQueues_rx idle (push_eq input.push c)

theorem uart_pushStep {s : Machine} {d d' : Direction} (moved : d.pushStep false = some d') :
    (uartLoop tx rx).step (.uart none) ({ s with pc := .push }.withRx d) =
      some ({ s with pc := .push }.withRx d') := by
  have busy : d.pusher ≠ .idle := (pushStep_popper moved).2
  show (if d.pusher = .idle then _ else _) = _
  rw [if_neg busy]
  have step : ({ s with pc := .push }.withRx d).queues.rx.step (.pushStep false) = some d' := moved
  exact onQueues_rx rfl step

theorem poll_empty {s : Machine} (pc : s.pc = .push) (stay : s.exitThreadFlag = false)
    (magic : s.magic = virtualUartMagic) (push : s.queues.rx.pusher = .idle)
    (poll : s.queues.tx.popper = .idle false) (empty : s.queues.tx.ring.count = 0) :
    (uartLoop tx rx).Leads s { s with pc := .input } := by
  have nothing : canPop s.queues.tx.ring.head s.queues.tx.ring.tail = false := by
    by_contra some_byte
    have used := (canPop_iff _ _).mp (Bool.not_eq_false _ ▸ some_byte)
    exact absurd empty (Nat.pos_iff_ne_zero.mp used)
  let polling (popper : PopPc) := { s with pc := .canPop }.withTx { s.queues.tx with popper }
  have called : (uartLoop tx rx).step (.uart none) s = some (polling .pollHead) := by
    simp only [uart_step_eq, Machine.uartStep, pc, push, if_true]
    exact callCanPop_eq push poll
  have loaded : (uartLoop tx rx).step (.uart none) (polling .pollHead) =
      some (polling (.pollTail s.queues.tx.ring.head)) := rfl
  have tested : (uartLoop tx rx).step (.uart none) (polling (.pollTail s.queues.tx.ring.head)) =
      some (polling (.idle false)) := by
    rw [← nothing]
    rfl
  have same : polling (.idle false) = { s with pc := .canPop } := by
    rw [← poll]
    rfl
  have back : (uartLoop tx rx).step (.uart none) { s with pc := .canPop } =
      some { s with pc := .testExit } := by
    simp only [uart_step_eq, Machine.uartStep, poll, Bool.false_eq_true, if_false]
  have goes_on : (uartLoop tx rx).step (.uart none) { s with pc := .testExit } =
      some { s with pc := .testMagic } := by
    simp only [uart_step_eq, Machine.uartStep, stay, Bool.false_eq_true, if_false]
  have looks : (uartLoop tx rx).step (.uart none) { s with pc := .testMagic } =
      some { s with pc := .input } := by
    simp only [uart_step_eq, Machine.uartStep, magic, bne_self_eq_false, Bool.false_eq_true,
      if_false]
  rw [same] at tested
  exact (((((System.Leads.refl s).next called).next loaded).next tested).next back).next goes_on
    |>.next looks

theorem type_key {s : Machine} {n : Nat} (input : AtInput s n) (room : n + 1 < slots) :
    ∃ t, (uartLoop tx rx).Leads s t ∧ AtInput t (n + 1) := by
  have fits : s.queues.rx.ring.HasRoom := by rwa [Ring.HasRoom, input.count]
  have typed : (uartLoop tx rx).Leads s
      ({ s with pc := .push }.withRx { s.queues.rx with pusher := .loadHead 65 }) :=
    (System.Leads.refl s).next (uart_push input (by decide))
  have written : (uartLoop tx rx).Leads s
      ({ s with pc := .push }.withRx (s.queues.rx.written 65)) :=
    @push_call (fun d => (uartLoop tx rx).Leads s ({ s with pc := .push }.withRx d))
      (fun _ _ leads moved => leads.next (uart_pushStep moved)) _ 65 fits typed
  let pushed := { s with pc := .push }.withRx (s.queues.rx.written 65)
  have stay : pushed.exitThreadFlag = false := input.stay
  have poll : pushed.queues.tx.popper = .idle false := input.poll
  have empty : pushed.queues.tx.ring.count = 0 := input.empty
  have count : pushed.queues.rx.ring.count = n + 1 := by
    rw [← input.count]
    exact written_count fits 65
  have polled : (uartLoop tx rx).Leads pushed { pushed with pc := .input } :=
    poll_empty rfl stay input.magic rfl poll empty
  refine ⟨{ pushed with pc := .input }, written.trans polled, ?_⟩
  exact ⟨rfl, input.plain, stay, input.magic, rfl, poll, input.quiet, input.resting, empty, count⟩

theorem fill_rx {s : Machine} (input : AtInput s 0) (n : Nat) (room : n < slots) :
    ∃ t, (uartLoop tx rx).Leads s t ∧ AtInput t n := by
  induction n with
  | zero => exact ⟨s, .refl s, input⟩
  | succ n ih =>
      obtain ⟨t, leads, reached⟩ := ih (by omega)
      obtain ⟨u, more, next⟩ := type_key reached room
      exact ⟨u, leads.trans more, next⟩

theorem input_deadlocks {s : Machine} (input : AtInput s 0) :
    ∃ t, (uartLoop tx rx).Leads s t ∧ Deadlocked t := by
  obtain ⟨n, capacity⟩ : ∃ n, n + 1 = slots := ⟨4095, rfl⟩
  obtain ⟨t, filled, full⟩ := fill_rx input n (by omega)
  have count : t.queues.rx.ring.count + 1 = slots := by rw [full.count, capacity]
  let typing := { t with pc := .push }.withRx { t.queues.rx with pusher := .loadHead 65 }
  have waits : typing.queues.rx.Waits := waits_of_count count 65
  have left : typing.queues.tx.ring.count + n + 1 = slots := by
    have empty : typing.queues.tx.ring.count = 0 := full.empty
    rw [empty, Nat.zero_add, capacity]
  obtain ⟨u, more, deadlocked⟩ :=
    @waiting_deadlocks tx rx n typing waits full.quiet full.resting left
  exact ⟨u, (filled.next (uart_push full (by decide))).trans more, deadlocked⟩

end Keys

def emptyRing : Ring := ⟨fun _ => 0, 0, 0⟩

def startMachine : Machine :=
  ⟨⟨.fresh emptyRing, .fresh emptyRing⟩, .testExit, false, false, virtualUartMagic⟩

theorem uart_loop_live_key :
    ∃ s, (uartLoop emptyRing emptyRing).runUnder RoomForKey
        [.uart none, .uart none, .uart (some 65)] startMachine = some s ∧
      Live emptyRing emptyRing s := by
  have run : ∃ s, (uartLoop emptyRing emptyRing).runUnder RoomForKey
      [.uart none, .uart none, .uart (some 65)] startMachine = some s := ⟨_, rfl⟩
  obtain ⟨s, run⟩ := run
  have start : (uartLoop emptyRing emptyRing).ReachableUnder RoomForKey startMachine :=
    .start ⟨rfl, rfl, rfl⟩
  exact ⟨s, run, (uart_loop_live emptyRing emptyRing s (start.runUnder _ run)).1⟩

/-- 4096 keys while the guest reads nothing, then 4096 bytes of output. -/
theorem full_rings_deadlock :
    ¬∀ s, (uartLoop emptyRing emptyRing).Reachable s → ¬Deadlocked s := by
  intro free
  have start :
      (uartLoop emptyRing emptyRing).Leads startMachine { startMachine with pc := .input } :=
    ⟨[.uart none, .uart none], rfl⟩
  obtain ⟨t, leads, deadlocked⟩ := @input_deadlocks emptyRing emptyRing
    { startMachine with pc := .input } ⟨rfl, rfl, rfl, rfl, rfl, rfl, rfl, rfl, rfl, rfl⟩
  have initial : (uartLoop emptyRing emptyRing).Reachable startMachine := .start ⟨rfl, rfl, rfl⟩
  exact free t (initial.leads (start.trans leads)) deadlocked

end TtBhLinux.Console
