import TtBhLinux.Virtio.Registers

/-!
# VirtioDevice::device_setup

Every load and store of a shared register is a step. `exit` is the value of `exit_thread_flag` when
a loop tests it.
-/

namespace TtBhLinux.Virtio
open Common

inductive Indexed
  | deviceFeaturesList
  | driverFeaturesList
  | address (area : Area)
  deriving DecidableEq

inductive SetupPc
  | waitDriver
  -- the feature loop
  | featGen
  | featDeviceSel
  | featDevice (features : U32)
  | featDriverSel
  | featDriver (features : U32)
  | featAck
  | featStatus
  | resize
  -- the queue loop
  | queueGen
  | queueReady
  | queueSelect
  | queueHigh (area : Area) (queue_select_val : U32)
  | queueLow (area : Area) (queue_select_val high : U32)
  | queueAck (queue_select_val : U32)
  | pointers
  | waitDriverOk
  | returned
  | fault (array : Indexed) (index : U32)
  deriving DecidableEq

/-- `address` stands for `descriptor_table_address`, `available_ring_address` and
`used_ring_address`, `pointer` for `desc`, `avail` and `used`. -/
structure Setup where
  pc : SetupPc
  prevSelGeneration : U32
  currSelGeneration : U32
  address : Area → Nat → U64
  pointer : Area → Nat → U64

def Setup.start : Setup := ⟨.waitDriver, 0, 0, fun _ _ => 0, fun _ _ => 0⟩

def Area.next : Area → Option Area
  | .desc => some .avail
  | .avail => some .used
  | .used => none

def Setup.record (s : Setup) (area : Area) (queue_select_val : U32) (a : U64) : Setup :=
  let entries := Function.update (s.address area) queue_select_val.toNat a
  { s with address := Function.update s.address area entries }

def Setup.setPointers (c : Config) (s : Setup) : Setup :=
  { s with pointer := fun area i =>
      if i < c.numQueues.toNat then c.hostPointer (s.address area i) else s.pointer area i }

def setupStep (c : Config) (exit : Bool) (s : Setup) (r : Regs) : Option (Setup × Regs) :=
  match s.pc with
  | .waitDriver =>
      some ({ s with pc := if exit || r.hasStatus statusDriver then .featGen else .waitDriver }, r)
  | .featGen =>
      if exit then some ({ s with pc := .resize }, r)
      else some ({ s with
        currSelGeneration := r.selGeneration
        pc := if r.selGeneration != s.prevSelGeneration then .featDeviceSel else .featStatus }, r)
  | .featDeviceSel =>
      let sel := r.deviceFeaturesSel
      some ({ s with
        pc := if h : sel.toNat < 2 then .featDevice (c.deviceFeaturesList ⟨sel.toNat, h⟩)
          else .fault .deviceFeaturesList sel }, r)
  | .featDevice features =>
      some ({ s with pc := .featDriverSel }, { r with deviceFeatures := features })
  | .featDriverSel =>
      let sel := r.driverFeaturesSel
      some ({ s with
        pc := if h : sel.toNat < 2 then .featDriver (c.driverFeaturesList ⟨sel.toNat, h⟩)
          else .fault .driverFeaturesList sel }, r)
  | .featDriver features =>
      some ({ s with pc := .featAck }, { r with driverFeatures := features })
  | .featAck =>
      some ({ s with pc := .featStatus, prevSelGeneration := s.currSelGeneration + 1 },
        { r with selGeneration := s.currSelGeneration + 1 })
  | .featStatus =>
      some ({ s with pc := if r.hasStatus statusFeaturesOk then .resize else .featGen }, r)
  | .resize =>
      some ({ s with pc := .queueGen, address := fun _ _ => 0, pointer := fun _ _ => 0 }, r)
  | .queueGen =>
      if exit then some ({ s with pc := .pointers }, r)
      else some ({ s with pc := .queueReady, currSelGeneration := r.selGeneration }, r)
  | .queueReady =>
      some ({ s with
        pc := if s.currSelGeneration != s.prevSelGeneration then .queueSelect else .queueGen },
        { r with queueReady := 0 })
  | .queueSelect => some ({ s with pc := .queueHigh .desc r.queueSelect }, r)
  | .queueHigh area q => some ({ s with pc := .queueLow area q (r.queueHigh area) }, r)
  | .queueLow area q high =>
      if q < c.numQueues then
        some ({ s.record area q (joinWords high (r.queueLow area)) with
          pc := match area.next with
            | some area' => .queueHigh area' q
            | none => .queueAck q }, r)
      else some ({ s with pc := .fault (.address area) q }, r)
  | .queueAck q =>
      some ({ s with
        pc := if q = c.numQueues - 1 then .pointers else .queueGen
        prevSelGeneration := s.currSelGeneration + 1 },
        { r with selGeneration := s.currSelGeneration + 1 })
  | .pointers => some ({ s.setPointers c with pc := .waitDriverOk }, r)
  | .waitDriverOk =>
      some ({ s with
        pc := if exit || r.hasStatus statusDriverOk then .returned else .waitDriverOk }, r)
  | .returned | .fault _ _ => none

/-! ## What a step leaves alone -/

structure SetupKeeps (r r' : Regs) : Prop where
  magicValue : r'.magicValue = r.magicValue
  status : r'.status = r.status
  deviceFeaturesSel : r'.deviceFeaturesSel = r.deviceFeaturesSel
  driverFeaturesSel : r'.driverFeaturesSel = r.driverFeaturesSel
  queueHigh : r'.queueHigh = r.queueHigh
  queueLow : r'.queueLow = r.queueLow
  queueSelect : r'.queueSelect = r.queueSelect

theorem setupStep_keeps {c : Config} {exit : Bool} {s s' : Setup} {r r' : Regs}
    (action : setupStep c exit s r = some (s', r')) : SetupKeeps r r' := by
  unfold setupStep at action
  cases pc : s.pc <;> rw [pc] at action <;> simp only [reduceCtorEq] at action
  all_goals try split at action
  all_goals
    obtain ⟨-, rfl⟩ := Prod.mk.inj (Option.some.inj action)
    exact ⟨rfl, rfl, rfl, rfl, rfl, rfl, rfl⟩

end TtBhLinux.Virtio
