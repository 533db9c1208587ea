import TtBhLinux.Common.Circular
import TtBhLinux.Common.System
import TtBhLinux.Common.Words

/-!
# The console rings

The host calls `push_char` on rx and `can_pop`, `pop_char` on tx; the guest does the opposite with
the same discipline. Every load and store of a ring is a step of its own.
-/

namespace TtBhLinux.Console
open Common

def bufferSize : U32 := 0x1000

structure Ring where
  buf : Nat → U8
  head : U32
  tail : U32

def canPush (head tail : U32) : Bool := (head % bufferSize + 1) % bufferSize != tail % bufferSize

def canPop (head tail : U32) : Bool := head % bufferSize != tail % bufferSize

def advance (free : Bool) (index : U32) : U32 := if free then index + 1 else (index + 1) % bufferSize

inductive PushPc
  | idle
  | loadHead (c : U8)
  | loadTail (c : U8) (head : U32)
  | loadSlot (c : U8)
  | storeSlot (c : U8) (head : U32)
  | reloadHead (c : U8)
  | storeHead (c : U8) (head : U32)
  deriving DecidableEq

/-- `ready` says that `can_pop` has returned true and nothing has been popped since. -/
inductive PopPc
  | idle (ready : Bool)
  | pollHead
  | pollTail (head : U32)
  | loadHead (ready : Bool)
  | loadTail (ready : Bool) (head : U32)
  | loadSlot
  | readSlot (tail : U32)
  | reloadTail (c : U8)
  | storeTail (c : U8) (tail : U32)
  deriving DecidableEq

structure Direction where
  ring : Ring
  pusher : PushPc
  popper : PopPc
  pushed : List U8
  popped : List U8

inductive Move
  | push (c : U8)
  | pushStep (free : Bool)
  | poll
  | pop
  | popStep (free : Bool)

def Direction.pushStep (free : Bool) (d : Direction) : Option Direction :=
  match d.pusher with
  | .idle => none
  | .loadHead c => some { d with pusher := .loadTail c d.ring.head }
  | .loadTail c head =>
      some { d with pusher := if canPush head d.ring.tail then .loadSlot c else .loadHead c }
  | .loadSlot c => some { d with pusher := .storeSlot c d.ring.head }
  | .storeSlot c head => some { d with
      pusher := .reloadHead c
      ring := { d.ring with buf := Function.update d.ring.buf (head % bufferSize).toNat c } }
  | .reloadHead c => some { d with pusher := .storeHead c d.ring.head }
  | .storeHead c head => some { d with
      pusher := .idle
      ring := { d.ring with head := advance free head }
      pushed := d.pushed ++ [c] }

def Direction.popStep (free : Bool) (d : Direction) : Option Direction :=
  match d.popper with
  | .idle _ => none
  | .pollHead => some { d with popper := .pollTail d.ring.head }
  | .pollTail head => some { d with popper := .idle (canPop head d.ring.tail) }
  | .loadHead ready => some { d with popper := .loadTail ready d.ring.head }
  | .loadTail ready head =>
      some { d with popper := if canPop head d.ring.tail then .loadSlot else .loadHead ready }
  | .loadSlot => some { d with popper := .readSlot d.ring.tail }
  | .readSlot tail => some { d with popper := .reloadTail (d.ring.buf (tail % bufferSize).toNat) }
  | .reloadTail c => some { d with popper := .storeTail c d.ring.tail }
  | .storeTail c tail => some { d with
      popper := .idle false
      ring := { d.ring with tail := advance free tail }
      popped := d.popped ++ [c] }

def Direction.step : Move → Direction → Option Direction
  | .push c, d => if d.pusher = .idle then some { d with pusher := .loadHead c } else none
  | .pushStep free, d => d.pushStep free
  | .poll, d => match d.popper with
      | .idle _ => some { d with popper := .pollHead }
      | _ => none
  | .pop, d => match d.popper with
      | .idle ready => some { d with popper := .loadHead ready }
      | _ => none
  | .popStep free, d => d.popStep free

def PopPc.isIdle : PopPc → Bool
  | .idle _ => true
  | _ => false

structure Queues where
  tx : Direction
  rx : Direction

inductive Label
  | tx (move : Move)
  | rx (move : Move)

/-- The host is one thread and stores its indices reduced; the guest is not restricted. -/
def hostTurn (q : Queues) : Label → Bool
  | .rx (.push _) => q.tx.popper.isIdle
  | .rx (.pushStep free) => !free
  | .tx .poll | .tx .pop => q.rx.pusher = .idle
  | .tx (.popStep free) => !free
  | _ => true

def Queues.step (label : Label) (q : Queues) : Option Queues :=
  if hostTurn q label then
    match label with
    | .tx move => (q.tx.step move).map fun d => { q with tx := d }
    | .rx move => (q.rx.step move).map fun d => { q with rx := d }
  else none

def Direction.fresh (ring : Ring) : Direction := ⟨ring, .idle, .idle false, [], []⟩

def console (tx rx : Ring) : System Queues Label where
  init q := q = ⟨.fresh tx, .fresh rx⟩
  step := Queues.step

def Ring.queued (r : Ring) : List U8 :=
  window bufferSize.toNat r.buf r.tail.toNat (used bufferSize.toNat r.head.toNat r.tail.toNat)

end TtBhLinux.Console
