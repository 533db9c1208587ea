import TtBhLinux.Common.System
import TtBhLinux.L2cpu.Windows
import Mathlib.Logic.Function.Basic

/-!
# The system calls of an L2CPU

Constructing and destroying an `L2CPU` is a fixed sequence of system calls. The operating system
hands out what is free at that moment, also what has been in use before.
-/

namespace TtBhLinux.L2cpu
open Common

/-! ## The operating system -/

inductive Owner
  | rest
  | object (o : Nat)
  deriving DecidableEq

structure DeviceFile where
  owner : Owner
  card : Nat
  tlbs : List Nat

structure Os where
  files : Int → Option DeviceFile
  maps : U64 → Option Owner

inductive Release
  | munmap (base : U64) (size : Nat)
  | close (fd : Int)
  | freeTlb (fd : Int) (id : Nat)

namespace Os

def modifyFile (os : Os) (fd : Int) (f : DeviceFile → DeviceFile) : Os :=
  { os with files := Function.update os.files fd ((os.files fd).map f) }

def mmap (os : Os) (owner : Owner) (base : U64) (size : Nat) : Os :=
  { os with maps := fun p => if InRegion base size p then some owner else os.maps p }

def release (os : Os) : Release → Os
  | .munmap base size =>
      { os with maps := fun p => if InRegion base size p then none else os.maps p }
  | .close fd => { os with files := Function.update os.files fd none }
  | .freeTlb fd id => os.modifyFile fd fun file => { file with tlbs := file.tlbs.erase id }

def Free (os : Os) (base : U64) (size : Nat) : Prop := ∀ p, InRegion base size p → os.maps p = none

end Os

def PageAligned (a : U64) : Prop := a.toNat % 4096 = 0

/-! ## tlb.cpp and l2cpu.cpp -/

/-- The windows of `set_frequency` and the members of an `L2CPU`. -/
inductive Handle
  | windowCntl5
  | windowCntl1
  | first
  | second
  deriving DecidableEq

def Handle.size : Handle → Nat
  | .windowCntl5 | .windowCntl1 => twoMeg.toNat
  | .first | .second => fourGig.toNat

inductive Call
  | openDevice
  | allocate (h : Handle)
  | configure (h : Handle)
  | map (h : Handle)
  | reserve
  | unmap (h : Handle)
  | free (h : Handle)
  | unmapMemory
  | close
  deriving DecidableEq

def tlbHandle (h : Handle) : List Call := [.allocate h, .configure h, .map h]

def tlbHandleDestructor (h : Handle) : List Call := [.unmap h, .free h]

def setFrequency : List Call :=
  tlbHandle .windowCntl5 ++ tlbHandle .windowCntl1 ++
    tlbHandleDestructor .windowCntl1 ++ tlbHandleDestructor .windowCntl5

def constructor : List Call :=
  [.openDevice] ++ setFrequency ++ [.reserve] ++ tlbHandle .first ++ tlbHandle .second

/-- The body of `L2CPU::~L2CPU`. -/
def destructorBody : List Call := [.unmapMemory, .close]

/-- `second` is declared after `first`, and both before `memory`, whose destruction does nothing. -/
def memberDestructors : List Call := tlbHandleDestructor .second ++ tlbHandleDestructor .first

def lifetime : List Call := constructor ++ destructorBody ++ memberDestructors

def bodyEnd : Nat := (constructor ++ destructorBody).length

def mapFailed : U64 := 0xffffffffffffffff

structure Object where
  cardIdx : Nat
  made : Nat
  fd : Int
  memory : U64
  tlbId : Handle → Nat
  tlbBase : Handle → U64

/-- The argument `base` of the handle, `none` being the null pointer. -/
def Object.base (obj : Object) : Handle → Option U64
  | .windowCntl5 | .windowCntl1 => none
  | .first => some obj.memory
  | .second => some (obj.memory + (1 <<< 32 : U64))

inductive Answer
  | fails
  | done
  | fd (n : Int)
  | tlb (id : Nat)
  | address (a : U64)

/-- What the call releases; a handle that cannot be configured or mapped frees its TLB. -/
def releaseOf (obj : Object) : Call → Answer → Option Release
  | .unmap h, _ => some (.munmap (obj.tlbBase h) h.size)
  | .free h, _ => some (.freeTlb obj.fd (obj.tlbId h))
  | .unmapMemory, _ => some (.munmap obj.memory (2 <<< 32))
  | .close, _ => some (.close obj.fd)
  | .configure h, .fails | .map h, .fails => some (.freeTlb obj.fd (obj.tlbId h))
  | _, _ => none

def Os.acquire (os : Os) (o : Nat) (obj : Object) : Call → Answer → Os
  | .openDevice, .fd n =>
      { os with files := Function.update os.files n (some ⟨.object o, obj.cardIdx, []⟩) }
  | .allocate _, .tlb id => os.modifyFile obj.fd fun file => { file with tlbs := id :: file.tlbs }
  | .map h, .address a => os.mmap (.object o) a h.size
  | .reserve, .address a => os.mmap (.object o) a (2 <<< 32)
  | _, _ => os

/-- The results of `open` and of the `mmap` of `memory` are not checked. -/
def Object.receive (obj : Object) : Call → Answer → Object
  | .openDevice, .fd n => { obj with fd := n }
  | .openDevice, _ => { obj with fd := -1 }
  | .allocate h, .tlb id => { obj with tlbId := Function.update obj.tlbId h id }
  | .map h, .address a => { obj with tlbBase := Function.update obj.tlbBase h a }
  | .reserve, .address a => { obj with memory := a }
  | .reserve, _ => { obj with memory := mapFailed }
  | _, _ => obj

def exits : Call → Answer → Bool
  | .allocate _, .fails | .configure _, .fails | .map _, .fails => true
  | _, _ => false

/-! ## The process -/

structure Process where
  os : Os
  objects : Nat → Object
  exited : Bool

structure Event where
  object : Nat
  answer : Answer

namespace Process

def next (s : Process) (o : Nat) : Option Call := lifetime[(s.objects o).made]?

def perform (s : Process) (o : Nat) (call : Call) (answer : Answer) : Process :=
  let obj := s.objects o
  { os := match releaseOf obj call answer with
      | some release => s.os.release release
      | none => s.os.acquire o obj call answer
    objects := Function.update s.objects o { obj.receive call answer with made := obj.made + 1 }
    exited := exits call answer }

def step (e : Event) (s : Process) : Option Process :=
  if s.exited then none else (s.next e.object).map fun call => s.perform e.object call e.answer

end Process

def Os.MayMap (os : Os) (base : Option U64) (a : U64) (size : Nat) : Prop :=
  match base with
  | none => os.Free a size
  | some base => a = base

def Os.MayAnswer (os : Os) (obj : Object) : Call → Answer → Prop
  | .openDevice, .fd n => 0 ≤ n ∧ os.files n = none
  | .allocate _, .tlb id => ∃ file, os.files obj.fd = some file ∧
      ∀ n other, os.files n = some other → other.card = file.card → id ∉ other.tlbs
  | .map h, .address a =>
      (∃ file, os.files obj.fd = some file) ∧ PageAligned a ∧ os.MayMap (obj.base h) a h.size
  | .reserve, .address a => PageAligned a ∧ os.Free a (2 <<< 32)
  | .openDevice, .fails | .allocate _, .fails | .configure _, .fails | .map _, .fails
  | .reserve, .fails => True
  | .configure _, .done | .unmap _, .done | .free _, .done | .unmapMemory, .done
  | .close, .done => True
  | _, _ => False

def Allowed (s : Process) (e : Event) : Prop :=
  ∀ call, s.next e.object = some call → s.os.MayAnswer (s.objects e.object) call e.answer

/-- Whatever else the process has open and mapped, no object has made a call yet. -/
def process : System Process Event where
  init s := s.exited = false ∧ (∀ o, (s.objects o).made = 0) ∧
    (∀ n file, s.os.files n = some file → 0 ≤ n ∧ file.owner = .rest) ∧
    ∀ p owner, s.os.maps p = some owner → owner = .rest
  step := Process.step

/-! ## Releasing what one owns -/

def Release.Proper (os : Os) (o : Nat) : Release → Prop
  | .munmap base size => ∀ p, InRegion base size p → os.maps p = some (.object o)
  | .close fd => ∃ file, os.files fd = some file ∧ file.owner = .object o
  | .freeTlb fd id => ∃ file, os.files fd = some file ∧ file.owner = .object o ∧ id ∈ file.tlbs

structure OwnStep (o : Nat) (s t : Process) : Prop where
  files : ∀ n, t.os.files n = s.os.files n ∨
    (∀ file, s.os.files n = some file → file.owner = .object o) ∧
      ∀ file, t.os.files n = some file → file.owner = .object o
  maps : ∀ p, t.os.maps p = s.os.maps p ∨
    (∀ owner, s.os.maps p = some owner → owner = .object o) ∧
      ∀ owner, t.os.maps p = some owner → owner = .object o
  objects : ∀ p, p ≠ o → t.objects p = s.objects p

structure ReleasesOwn (s : Process) (e : Event) (t : Process) : Prop where
  proper : ∀ call release, s.next e.object = some call →
    releaseOf (s.objects e.object) call e.answer = some release →
      release.Proper s.os e.object
  others : OwnStep e.object s t

def MemberCall (s : Process) (e : Event) : Prop := bodyEnd ≤ (s.objects e.object).made

end TtBhLinux.L2cpu
