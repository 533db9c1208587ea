import TtBhLinux.Common.System
import TtBhLinux.Virtio.Setup

/-!
# The setup handshake

The feature loop and the queue loop both take a changed `sel_generation` for a request of their own
kind. So a queue can be acknowledged by the wrong loop (`handshake_loses_queue`), unless the feature
loop never samples `sel_generation` while a queue request is pending.
-/

namespace TtBhLinux.Virtio
open Common

/-! ## The driver -/

inductive DriverPc
  | start
  | features
  | featuresWait (g : U32)
  /-- FEATURES_OK is set, the queues below `q` are acknowledged and `q` is being prepared. -/
  | queue (q : Nat)
  | queueWait (q : Nat) (g : U32)
  | done
  deriving DecidableEq

structure Driver where
  pc : DriverPc
  seen : Option U32

inductive DriverMove
  | setDriver
  | selectDeviceFeatures (high : Bool)
  | selectDriverFeatures (high : Bool)
  | readGeneration
  | request (g : U32)
  | setFeaturesOk
  | storeSelect
  | storeHigh (area : Area)
  | storeLow (area : Area)
  | setDriverOk
  deriving DecidableEq

abbrev Given := Area → Nat → U64

/-- All seven words of queue `q` are stored. Only the driver writes them. -/
def Prepared (given : Given) (q : Nat) (r : Regs) : Prop :=
  r.queueSelect = .ofNat 32 q ∧
    ∀ area, r.queueHigh area = highWord (given area q) ∧ r.queueLow area = lowWord (given area q)

instance (given : Given) (q : Nat) (r : Regs) : Decidable (Prepared given q r) :=
  decidable_of_iff (r.queueSelect = .ofNat 32 q ∧ ∀ area ∈ [Area.desc, .avail, .used],
    r.queueHigh area = highWord (given area q) ∧ r.queueLow area = lowWord (given area q)) (by
    refine and_congr_right fun _ => ⟨fun h area => h area ?_, fun h area _ => h area⟩
    cases area <;> simp)

def selector (high : Bool) : U32 := if high then 1 else 0

def driverStep (numQueues : U32) (given : Given) (move : DriverMove) (d : Driver) (r : Regs) :
    Option (Driver × Regs) :=
  match d.pc, move with
  | .start, .setDriver =>
      some ({ d with pc := .features }, { r with status := r.status ||| statusDriver })
  | .features, .selectDeviceFeatures high =>
      some (d, { r with deviceFeaturesSel := selector high })
  | .features, .selectDriverFeatures high =>
      some (d, { r with driverFeaturesSel := selector high })
  | .features, .request g =>
      if d.seen.any (· ≠ g) then
        some ({ d with pc := .featuresWait g }, { r with selGeneration := g })
      else none
  | .features, .setFeaturesOk =>
      some ({ d with pc := .queue 0 }, { r with status := r.status ||| statusFeaturesOk })
  | .featuresWait g, .readGeneration =>
      some ({ pc := if r.selGeneration ≠ g then .features else .featuresWait g,
              seen := some r.selGeneration }, r)
  | .queue q, .storeSelect =>
      if q < numQueues.toNat then some (d, { r with queueSelect := .ofNat 32 q }) else none
  | .queue q, .storeHigh area =>
      if q < numQueues.toNat then
        some (d, { r with queueHigh := Function.update r.queueHigh area (highWord (given area q)) })
      else none
  | .queue q, .storeLow area =>
      if q < numQueues.toNat then
        some (d, { r with queueLow := Function.update r.queueLow area (lowWord (given area q)) })
      else none
  | .queue q, .request g =>
      if q < numQueues.toNat ∧ Prepared given q r ∧ d.seen.any (· ≠ g) then
        some ({ d with pc := .queueWait q g }, { r with selGeneration := g })
      else none
  | .queueWait q g, .readGeneration =>
      some ({ pc := if r.selGeneration ≠ g then .queue (q + 1) else .queueWait q g,
              seen := some r.selGeneration }, r)
  | .queue q, .setDriverOk =>
      if q = numQueues.toNat then
        some ({ d with pc := .done }, { r with status := r.status ||| statusDriverOk })
      else none
  | .start, .readGeneration | .features, .readGeneration | .queue _, .readGeneration
  | .done, .readGeneration => some ({ d with seen := some r.selGeneration }, r)
  | _, _ => none

structure Handshake where
  dev : Setup
  regs : Regs
  driver : Driver

inductive Party
  | device
  | driver (move : DriverMove)
  deriving DecidableEq

def handshake (c : Config) (given : Given) : System Handshake Party where
  init s := s = ⟨.start, .constructed c, ⟨.start, none⟩⟩
  step
    | .device, s => (setupStep c false s.dev s.regs).map fun (dev, regs) => { s with dev, regs }
    | .driver move, s => (driverStep c.numQueues given move s.driver s.regs).map
        fun (driver, regs) => { s with driver, regs }

def Driver.acknowledged (numQueues : U32) (d : Driver) : Nat :=
  match d.pc with
  | .start | .features | .featuresWait _ => 0
  | .queue q | .queueWait q _ => q
  | .done => numQueues.toNat

structure HandshakeSafe (c : Config) (given : Given) (s : Handshake) : Prop where
  recorded : ∀ q < s.driver.acknowledged c.numQueues, ∀ area, s.dev.address area q = given area q
  returned : s.dev.pc = .returned → ∀ q < c.numQueues.toNat, ∀ area,
    s.dev.pointer area q = c.hostPointer (given area q)

def DriverPc.queuePending : DriverPc → Bool
  | .queueWait _ _ => true
  | _ => false

/-- The feature loop does not sample `sel_generation` while a queue request is pending. -/
def FeatureLoopClear (s : Handshake) (party : Party) : Prop :=
  ¬(party = .device ∧ s.dev.pc = .featGen ∧ s.driver.pc.queuePending = true)

instance (s : Handshake) (party : Party) : Decidable (FeatureLoopClear s party) :=
  inferInstanceAs (Decidable ¬_)

/-! ## The invariant -/

def FeatIdle (pc : SetupPc) : Prop := pc = .waitDriver ∨ pc = .featGen ∨ pc = .featStatus

inductive FeatBusy : SetupPc → Prop
  | deviceSel : FeatBusy .featDeviceSel
  | device (features : U32) : FeatBusy (.featDevice features)
  | driverSel : FeatBusy .featDriverSel
  | driver (features : U32) : FeatBusy (.featDriver features)
  | ack : FeatBusy .featAck

def Recorded (given : Given) (n : Nat) (dev : Setup) : Prop :=
  ∀ q < n, ∀ area, dev.address area q = given area q

inductive QueueIdle (c : Config) (given : Given) (n : Nat) (dev : Setup) : Prop
  | features : n = 0 → FeatIdle dev.pc → QueueIdle c given n dev
  | resize : n = 0 → dev.pc = .resize → QueueIdle c given n dev
  | gen : n < c.numQueues.toNat → dev.pc = .queueGen → QueueIdle c given n dev
  | ready : n < c.numQueues.toNat → dev.pc = .queueReady →
      dev.currSelGeneration = dev.prevSelGeneration → QueueIdle c given n dev
  | pointers : n = c.numQueues.toNat → dev.pc = .pointers → QueueIdle c given n dev
  | mapped : n = c.numQueues.toNat → dev.pc = .waitDriverOk ∨ dev.pc = .returned →
      (∀ q < n, ∀ area, dev.pointer area q = c.hostPointer (given area q)) →
      QueueIdle c given n dev

def Area.earlier : Area → Area → Prop
  | .desc, _ => False
  | .avail, a => a = .desc
  | .used, a => a = .desc ∨ a = .avail

theorem Area.earlier.ne {area a : Area} (before : area.earlier a) : a ≠ area := by
  cases area with
  | desc => exact before.elim
  | avail => simp [show a = .desc from before]
  | used => rcases before with rfl | rfl <;> simp

inductive QueueBusy (given : Given) (q : Nat) (dev : Setup) : Prop
  | ready : dev.pc = .queueReady → QueueBusy given q dev
  | select : dev.pc = .queueSelect → QueueBusy given q dev
  | high (area : Area) : dev.pc = .queueHigh area (.ofNat 32 q) →
      (∀ a, area.earlier a → dev.address a q = given a q) → QueueBusy given q dev
  | low (area : Area) : dev.pc = .queueLow area (.ofNat 32 q) (highWord (given area q)) →
      (∀ a, area.earlier a → dev.address a q = given a q) → QueueBusy given q dev
  | ack : dev.pc = .queueAck (.ofNat 32 q) → (∀ a, dev.address a q = given a q) →
      QueueBusy given q dev

def Driver.SeenCurrent (d : Driver) (r : Regs) : Prop := ∀ v ∈ d.seen, v = r.selGeneration

def PhaseInv (c : Config) (given : Given) (s : Handshake) : DriverPc → Prop
  | .start => s.regs.status = 0 ∧ s.dev.pc = .waitDriver ∧ s.driver.SeenCurrent s.regs ∧
      s.regs.selGeneration = s.dev.prevSelGeneration
  | .features => s.regs.status = 2 ∧ FeatIdle s.dev.pc ∧ s.driver.SeenCurrent s.regs ∧
      s.regs.selGeneration = s.dev.prevSelGeneration
  | .featuresWait g => s.regs.status = 2 ∧
      (s.regs.selGeneration = g ∧ g ≠ s.dev.prevSelGeneration ∧
          (FeatIdle s.dev.pc ∨ FeatBusy s.dev.pc ∧ s.dev.currSelGeneration = g) ∨
        s.regs.selGeneration ≠ g ∧ s.regs.selGeneration = s.dev.prevSelGeneration ∧
          FeatIdle s.dev.pc)
  | .queue q => s.regs.status = 10 ∧ Recorded given q s.dev ∧ QueueIdle c given q s.dev ∧
      s.driver.SeenCurrent s.regs ∧ s.regs.selGeneration = s.dev.prevSelGeneration
  | .queueWait q g => s.regs.status = 10 ∧ q < c.numQueues.toNat ∧ Prepared given q s.regs ∧
      (s.regs.selGeneration = g ∧ g ≠ s.dev.prevSelGeneration ∧ Recorded given q s.dev ∧
          (QueueIdle c given q s.dev ∨ QueueBusy given q s.dev ∧ s.dev.currSelGeneration = g) ∨
        s.regs.selGeneration ≠ g ∧ s.regs.selGeneration = s.dev.prevSelGeneration ∧
          Recorded given (q + 1) s.dev ∧ QueueIdle c given (q + 1) s.dev)
  | .done => s.regs.status = 14 ∧ Recorded given c.numQueues.toNat s.dev ∧
      QueueIdle c given c.numQueues.toNat s.dev ∧
      s.regs.selGeneration = s.dev.prevSelGeneration

structure HandshakeInv (c : Config) (given : Given) (s : Handshake) : Prop where
  deviceSel : s.regs.deviceFeaturesSel.toNat < 2
  driverSel : s.regs.driverFeaturesSel.toNat < 2
  phase : PhaseInv c given s s.driver.pc

theorem QueueIdle.le {c : Config} {given : Given} {n : Nat} {dev : Setup}
    (h : QueueIdle c given n dev) : n ≤ c.numQueues.toNat := by
  cases h <;> omega

theorem add_one_ne (x : U32) : x + 1 ≠ x := by bv_omega

/-! ## Device steps -/

theorem featIdle_step {c : Config} {dev dev' : Setup} {r r' : Regs} (idle : FeatIdle dev.pc)
    (calm : r.selGeneration = dev.prevSelGeneration) (driver : r.hasStatus statusDriver = true)
    (no_features : r.hasStatus statusFeaturesOk = false)
    (action : setupStep c false dev r = some (dev', r')) :
    FeatIdle dev'.pc ∧ r' = r ∧ dev'.prevSelGeneration = dev.prevSelGeneration := by
  unfold setupStep at action
  rcases idle with pc | pc | pc <;> rw [pc] at action
  · obtain ⟨rfl, rfl⟩ := Prod.mk.inj (Option.some.inj action)
    exact ⟨.inr (.inl (by simp [driver])), rfl, rfl⟩
  · obtain ⟨rfl, rfl⟩ := Prod.mk.inj (Option.some.inj action)
    exact ⟨.inr (.inr (by simp [calm])), rfl, rfl⟩
  · obtain ⟨rfl, rfl⟩ := Prod.mk.inj (Option.some.inj action)
    exact ⟨.inr (.inl (by simp [no_features])), rfl, rfl⟩

theorem FeatIdle.sampled {c : Config} {dev dev' : Setup} {r r' : Regs} (idle : FeatIdle dev.pc)
    (clear : dev.pc ≠ .featGen) (driver : r.hasStatus statusDriver = true)
    (action : setupStep c false dev r = some (dev', r')) :
    r' = r ∧ dev' = { dev with pc := dev'.pc } ∧ (FeatIdle dev'.pc ∨
      r.hasStatus statusFeaturesOk = true ∧ dev'.pc = .resize) := by
  unfold setupStep at action
  rcases idle with pc | pc | pc
  · rw [pc] at action
    obtain ⟨rfl, rfl⟩ := Prod.mk.inj (Option.some.inj action)
    exact ⟨rfl, rfl, .inl (.inr (.inl (by simp [driver])))⟩
  · exact absurd pc clear
  · rw [pc] at action
    obtain ⟨rfl, rfl⟩ := Prod.mk.inj (Option.some.inj action)
    refine ⟨rfl, rfl, ?_⟩
    cases test : r.hasStatus statusFeaturesOk
    · exact .inl (.inr (.inl (by simp)))
    · exact .inr ⟨rfl, by simp⟩

theorem featBusy_step {c : Config} {dev dev' : Setup} {r r' : Regs} (busy : FeatBusy dev.pc)
    (deviceSel : r.deviceFeaturesSel.toNat < 2) (driverSel : r.driverFeaturesSel.toNat < 2)
    (action : setupStep c false dev r = some (dev', r')) :
    (FeatBusy dev'.pc ∧ r'.selGeneration = r.selGeneration ∧
        dev'.prevSelGeneration = dev.prevSelGeneration ∧
        dev'.currSelGeneration = dev.currSelGeneration) ∨
      (FeatIdle dev'.pc ∧ r'.selGeneration = dev.currSelGeneration + 1 ∧
        dev'.prevSelGeneration = dev.currSelGeneration + 1) := by
  unfold setupStep at action
  generalize same : dev.pc = pc at busy action
  cases busy with
  | deviceSel =>
      obtain ⟨rfl, rfl⟩ := Prod.mk.inj (Option.some.inj action)
      exact .inl ⟨by simpa [deviceSel] using .device _, rfl, rfl, rfl⟩
  | device features =>
      obtain ⟨rfl, rfl⟩ := Prod.mk.inj (Option.some.inj action)
      exact .inl ⟨.driverSel, rfl, rfl, rfl⟩
  | driverSel =>
      obtain ⟨rfl, rfl⟩ := Prod.mk.inj (Option.some.inj action)
      exact .inl ⟨by simpa [driverSel] using .driver _, rfl, rfl, rfl⟩
  | driver features =>
      obtain ⟨rfl, rfl⟩ := Prod.mk.inj (Option.some.inj action)
      exact .inl ⟨.ack, rfl, rfl, rfl⟩
  | ack =>
      obtain ⟨rfl, rfl⟩ := Prod.mk.inj (Option.some.inj action)
      exact .inr ⟨.inr (.inr rfl), rfl, rfl⟩

theorem queueIdle_step {c : Config} {given : Given} {n : Nat} {dev dev' : Setup} {r r' : Regs}
    (idle : QueueIdle c given n dev) (recorded : Recorded given n dev)
    (calm : r.selGeneration = dev.prevSelGeneration) (driver : r.hasStatus statusDriver = true)
    (action : setupStep c false dev r = some (dev', r')) :
    QueueIdle c given n dev' ∧ Recorded given n dev' ∧
      r'.selGeneration = dev'.prevSelGeneration ∧ r'.selGeneration = r.selGeneration := by
  have positive : 0 < c.numQueues.toNat := by simpa [BitVec.lt_def] using c.numQueues_pos
  cases idle with
  | features zero idle =>
      subst zero
      by_cases sample : dev.pc = .featGen
      · unfold setupStep at action
        rw [sample] at action
        obtain ⟨rfl, rfl⟩ := Prod.mk.inj (Option.some.inj action)
        exact ⟨.features rfl (.inr (.inr (by simp [calm]))), recorded, calm, rfl⟩
      · obtain ⟨rfl, eq, next⟩ := idle.sampled sample driver action
        rw [eq]
        rcases next with idle | ⟨_, resize⟩
        · exact ⟨.features rfl idle, recorded, calm, rfl⟩
        · exact ⟨.resize rfl resize, recorded, calm, rfl⟩
  | resize zero pc =>
      unfold setupStep at action
      rw [pc] at action
      obtain ⟨rfl, rfl⟩ := Prod.mk.inj (Option.some.inj action)
      subst zero
      exact ⟨.gen positive rfl, fun q lt => absurd lt (Nat.not_lt_zero q), calm, rfl⟩
  | gen lt pc =>
      unfold setupStep at action
      rw [pc] at action
      obtain ⟨rfl, rfl⟩ := Prod.mk.inj (Option.some.inj action)
      exact ⟨.ready lt rfl calm, recorded, calm, rfl⟩
  | ready lt pc same =>
      unfold setupStep at action
      rw [pc] at action
      obtain ⟨rfl, rfl⟩ := Prod.mk.inj (Option.some.inj action)
      exact ⟨.gen lt (by simp [same]), recorded, calm, rfl⟩
  | pointers eq pc =>
      unfold setupStep at action
      rw [pc] at action
      obtain ⟨rfl, rfl⟩ := Prod.mk.inj (Option.some.inj action)
      refine ⟨.mapped eq (.inl rfl) fun q lt area => ?_, recorded, calm, rfl⟩
      have bound : q < c.numQueues.toNat := by omega
      simp [Setup.setPointers, bound, recorded q lt area]
  | mapped eq pc mapped =>
      unfold setupStep at action
      rcases pc with pc | pc
      · rw [pc] at action
        obtain ⟨rfl, rfl⟩ := Prod.mk.inj (Option.some.inj action)
        refine ⟨.mapped eq ?_ mapped, recorded, calm, rfl⟩
        cases r.hasStatus statusDriverOk <;> simp
      · rw [pc] at action
        simp at action

theorem queueIdle_pending_step {c : Config} {given : Given} {q : Nat} {dev dev' : Setup}
    {r r' : Regs} (idle : QueueIdle c given q dev) (lt : q < c.numQueues.toNat)
    (recorded : Recorded given q dev) (clear : dev.pc ≠ .featGen)
    (driver : r.hasStatus statusDriver = true)
    (action : setupStep c false dev r = some (dev', r')) :
    Recorded given q dev' ∧ r'.selGeneration = r.selGeneration ∧
      dev'.prevSelGeneration = dev.prevSelGeneration ∧
      (QueueIdle c given q dev' ∨
        QueueBusy given q dev' ∧ dev'.currSelGeneration = r.selGeneration) := by
  cases idle with
  | features zero idle =>
      obtain ⟨rfl, eq, next⟩ := idle.sampled clear driver action
      rw [eq]
      rcases next with idle | ⟨_, resize⟩
      · exact ⟨recorded, rfl, rfl, .inl (.features zero idle)⟩
      · exact ⟨recorded, rfl, rfl, .inl (.resize zero resize)⟩
  | resize zero pc =>
      unfold setupStep at action
      rw [pc] at action
      obtain ⟨rfl, rfl⟩ := Prod.mk.inj (Option.some.inj action)
      subst zero
      exact ⟨fun q lt => absurd lt (Nat.not_lt_zero q), rfl, rfl, .inl (.gen lt rfl)⟩
  | gen _ pc =>
      unfold setupStep at action
      rw [pc] at action
      obtain ⟨rfl, rfl⟩ := Prod.mk.inj (Option.some.inj action)
      exact ⟨recorded, rfl, rfl, .inr ⟨.ready rfl, rfl⟩⟩
  | ready _ pc same =>
      unfold setupStep at action
      rw [pc] at action
      obtain ⟨rfl, rfl⟩ := Prod.mk.inj (Option.some.inj action)
      exact ⟨recorded, rfl, rfl, .inl (.gen lt (by simp [same]))⟩
  | pointers eq _ => omega
  | mapped eq _ _ => omega

theorem record_other (s : Setup) {area area' : Area} {v : U32} {q : Nat} {a : U64}
    (ne : area' ≠ area ∨ q ≠ v.toNat) :
    (s.record area v a).address area' q = s.address area' q := by
  unfold Setup.record
  by_cases same : area' = area
  · subst same
    have : q ≠ v.toNat := by simpa using ne
    simp [this]
  · simp [same]

theorem record_same (s : Setup) (area : Area) (v : U32) (a : U64) :
    (s.record area v a).address area v.toNat = a := by
  simp [Setup.record]

theorem toNat_ofNat_of_lt {n : Nat} {c : Config} (lt : n < c.numQueues.toNat) :
    (BitVec.ofNat 32 n).toNat = n := by
  have := c.numQueues.isLt
  rw [BitVec.toNat_ofNat, Nat.mod_eq_of_lt (by omega)]

theorem queueBusy_step {c : Config} {given : Given} {q : Nat} {dev dev' : Setup} {r r' : Regs}
    (busy : QueueBusy given q dev) (lt : q < c.numQueues.toNat) (recorded : Recorded given q dev)
    (prepared : Prepared given q r) (pending : dev.currSelGeneration ≠ dev.prevSelGeneration)
    (action : setupStep c false dev r = some (dev', r')) :
    (QueueBusy given q dev' ∧ Recorded given q dev' ∧ r'.selGeneration = r.selGeneration ∧
        dev'.prevSelGeneration = dev.prevSelGeneration ∧
        dev'.currSelGeneration = dev.currSelGeneration) ∨
      (QueueIdle c given (q + 1) dev' ∧ Recorded given (q + 1) dev' ∧
        r'.selGeneration = dev.currSelGeneration + 1 ∧
        dev'.prevSelGeneration = dev.currSelGeneration + 1) := by
  have index := toNat_ofNat_of_lt lt
  unfold setupStep at action
  cases busy with
  | ready pc =>
      rw [pc] at action
      obtain ⟨rfl, rfl⟩ := Prod.mk.inj (Option.some.inj action)
      exact .inl ⟨.select (by simp [pending]), recorded, rfl, rfl, rfl⟩
  | select pc =>
      rw [pc] at action
      obtain ⟨rfl, rfl⟩ := Prod.mk.inj (Option.some.inj action)
      exact .inl ⟨.high .desc (by simp [prepared.1]) (fun a => False.elim), recorded, rfl, rfl, rfl⟩
  | high area pc earlier =>
      rw [pc] at action
      obtain ⟨rfl, rfl⟩ := Prod.mk.inj (Option.some.inj action)
      exact .inl ⟨.low area (by simp [(prepared.2 area).1]) earlier, recorded, rfl, rfl, rfl⟩
  | low area pc earlier =>
      rw [pc] at action
      have bound : BitVec.ofNat 32 q < c.numQueues := by rw [BitVec.lt_def, index]; exact lt
      simp only [bound, if_true] at action
      obtain ⟨rfl, rfl⟩ := Prod.mk.inj (Option.some.inj action)
      have kept : Recorded given q
          (dev.record area (.ofNat 32 q) (joinWords (highWord (given area q)) (r.queueLow area))) := by
        intro q' lt' a
        rw [record_other dev (.inr (by omega))]
        exact recorded q' lt' a
      have stored : (dev.record area (.ofNat 32 q)
          (joinWords (highWord (given area q)) (r.queueLow area))).address area q = given area q := by
        have := record_same dev area (.ofNat 32 q)
          (joinWords (highWord (given area q)) (r.queueLow area))
        rw [index] at this
        rw [this, (prepared.2 area).2, joinWords_split]
      have others : ∀ a, area.earlier a → (dev.record area (.ofNat 32 q)
          (joinWords (highWord (given area q)) (r.queueLow area))).address a q = given a q := by
        intro a before
        rw [record_other dev (.inl before.ne)]
        exact earlier a before
      refine .inl ⟨?_, kept, rfl, rfl, rfl⟩
      cases area with
      | desc => exact .high .avail rfl fun a before => by cases before; exact stored
      | avail =>
          apply QueueBusy.high .used rfl
          intro a before
          rcases before with rfl | rfl
          · exact others _ rfl
          · exact stored
      | used =>
          apply QueueBusy.ack rfl
          intro a
          cases a with
          | desc => exact others _ (.inl rfl)
          | avail => exact others _ (.inr rfl)
          | used => exact stored
  | ack pc all =>
      rw [pc] at action
      obtain ⟨rfl, rfl⟩ := Prod.mk.inj (Option.some.inj action)
      refine .inr ⟨?_, ?_, rfl, rfl⟩
      · have last : BitVec.ofNat 32 q = c.numQueues - 1 ↔ q + 1 = c.numQueues.toNat := by
          have positive : 0 < c.numQueues.toNat := by simpa [BitVec.lt_def] using c.numQueues_pos
          bv_omega
        by_cases final : q + 1 = c.numQueues.toNat
        · exact .pointers final (if_pos (last.mpr final))
        · exact .gen (by omega) (if_neg (mt last.mp final))
      · intro q' lt' a
        by_cases same : q' = q
        · exact same ▸ all a
        · exact recorded q' (by omega) a

theorem featIdle_pending_step {c : Config} {dev dev' : Setup} {r r' : Regs}
    (idle : FeatIdle dev.pc) (pending : r.selGeneration ≠ dev.prevSelGeneration)
    (driver : r.hasStatus statusDriver = true) (no_features : r.hasStatus statusFeaturesOk = false)
    (action : setupStep c false dev r = some (dev', r')) :
    r' = r ∧ dev'.prevSelGeneration = dev.prevSelGeneration ∧
      (FeatIdle dev'.pc ∨ FeatBusy dev'.pc ∧ dev'.currSelGeneration = r.selGeneration) := by
  by_cases sample : dev.pc = .featGen
  · unfold setupStep at action
    rw [sample] at action
    obtain ⟨rfl, rfl⟩ := Prod.mk.inj (Option.some.inj action)
    exact ⟨rfl, rfl, .inr ⟨by simpa [pending] using .deviceSel, rfl⟩⟩
  · obtain ⟨rfl, eq, next⟩ := idle.sampled sample driver action
    rw [eq]
    rcases next with idle | ⟨features, _⟩
    · exact ⟨rfl, rfl, .inl idle⟩
    · rw [no_features] at features
      exact absurd features (by simp)

theorem hasStatus_of_eq {r : Regs} {status : U32} (h : r.status = status) (bit : U32) :
    r.hasStatus bit = (status &&& bit != 0) := by
  rw [Regs.hasStatus, h]

theorem Prepared.frame {given : Given} {q : Nat} {r r' : Regs} (prepared : Prepared given q r)
    (same : SetupKeeps r r') : Prepared given q r' := by
  unfold Prepared
  rw [same.queueSelect, same.queueHigh, same.queueLow]
  exact prepared

theorem PhaseInv.device {c : Config} {given : Given} {s : Handshake} {dev' : Setup} {r' : Regs}
    (deviceSel : s.regs.deviceFeaturesSel.toNat < 2)
    (driverSel : s.regs.driverFeaturesSel.toNat < 2) {pc : DriverPc}
    (phase : PhaseInv c given s pc) (clear : ¬(s.dev.pc = .featGen ∧ pc.queuePending = true))
    (action : setupStep c false s.dev s.regs = some (dev', r')) :
    PhaseInv c given ⟨dev', r', s.driver⟩ pc := by
  have same := setupStep_keeps action
  cases pc with
  | start =>
      obtain ⟨status, pc, seen, calm⟩ := phase
      unfold setupStep at action
      rw [pc] at action
      obtain ⟨rfl, rfl⟩ := Prod.mk.inj (Option.some.inj action)
      exact ⟨status, by simp [hasStatus_of_eq status], seen, calm⟩
  | features =>
      obtain ⟨status, idle, seen, calm⟩ := phase
      obtain ⟨idle', rfl, prev⟩ := featIdle_step idle calm (by rw [hasStatus_of_eq status]; rfl)
        (by rw [hasStatus_of_eq status]; rfl) action
      exact ⟨status, idle', seen, calm.trans prev.symm⟩
  | featuresWait g =>
      obtain ⟨status, pending⟩ := phase
      have driver : s.regs.hasStatus statusDriver = true := by rw [hasStatus_of_eq status]; rfl
      have no_features : s.regs.hasStatus statusFeaturesOk = false := by
        rw [hasStatus_of_eq status]; rfl
      refine ⟨same.status.trans status, ?_⟩
      rcases pending with ⟨current, ne, idle | ⟨busy, sampled⟩⟩ | ⟨changed, calm, idle⟩
      · obtain ⟨rfl, prev, next⟩ := featIdle_pending_step idle (current ▸ ne) driver no_features
          action
        exact .inl ⟨current, prev ▸ ne, next.imp_right fun h => ⟨h.1, h.2.trans current⟩⟩
      · rcases featBusy_step busy deviceSel driverSel action with
          ⟨busy', gen, prev, curr⟩ | ⟨idle', gen, prev⟩
        · exact .inl ⟨gen.trans current, prev ▸ ne, .inr ⟨busy', curr.trans sampled⟩⟩
        · exact .inr ⟨by rw [gen, sampled]; exact add_one_ne g, gen.trans prev.symm, idle'⟩
      · obtain ⟨idle', rfl, prev⟩ := featIdle_step idle calm driver no_features action
        exact .inr ⟨changed, calm.trans prev.symm, idle'⟩
  | queue q =>
      obtain ⟨status, recorded, idle, seen, calm⟩ := phase
      obtain ⟨idle', recorded', calm', gen⟩ :=
        queueIdle_step idle recorded calm (by rw [hasStatus_of_eq status]; rfl) action
      exact ⟨same.status.trans status, recorded', idle', fun v h => (seen v h).trans gen.symm, calm'⟩
  | queueWait q g =>
      obtain ⟨status, lt, prepared, pending⟩ := phase
      have driver : s.regs.hasStatus statusDriver = true := by rw [hasStatus_of_eq status]; rfl
      refine ⟨same.status.trans status, lt, prepared.frame same, ?_⟩
      rcases pending with ⟨current, ne, recorded, idle | ⟨busy, sampled⟩⟩ |
        ⟨changed, calm, recorded, idle⟩
      · have clear : s.dev.pc ≠ .featGen := fun h => clear ⟨h, rfl⟩
        obtain ⟨recorded', gen, prev, next⟩ :=
          queueIdle_pending_step idle lt recorded clear driver action
        exact .inl ⟨gen.trans current, prev ▸ ne, recorded',
          next.imp_right fun h => ⟨h.1, h.2.trans current⟩⟩
      · rcases queueBusy_step busy lt recorded prepared (sampled ▸ ne) action with
          ⟨busy', recorded', gen, prev, curr⟩ | ⟨idle', recorded', gen, prev⟩
        · exact .inl ⟨gen.trans current, prev ▸ ne, recorded', .inr ⟨busy', curr.trans sampled⟩⟩
        · exact .inr ⟨by rw [gen, sampled]; exact add_one_ne g, gen.trans prev.symm, recorded',
            idle'⟩
      · obtain ⟨idle', recorded', calm', gen⟩ := queueIdle_step idle recorded calm driver action
        exact .inr ⟨gen ▸ changed, calm', recorded', idle'⟩
  | done =>
      obtain ⟨status, recorded, idle, calm⟩ := phase
      obtain ⟨idle', recorded', calm', -⟩ :=
        queueIdle_step idle recorded calm (by rw [hasStatus_of_eq status]; rfl) action
      exact ⟨same.status.trans status, recorded', idle', calm'⟩

/-! ## Driver steps -/

theorem selector_lt (high : Bool) : (selector high).toNat < 2 := by
  cases high <;> decide

theorem Driver.SeenCurrent.fresh {d : Driver} {r : Regs} {g prev : U32} (seen : d.SeenCurrent r)
    (fresh : d.seen.any (· ≠ g) = true) (calm : r.selGeneration = prev) : g ≠ prev := by
  cases read : d.seen with
  | none => simp [read] at fresh
  | some v =>
      have ne : v ≠ g := by simpa [read] using fresh
      rw [← calm, ← seen v read]
      exact ne.symm

theorem driverStep_inv {c : Config} {given : Given} {s : Handshake} {move : DriverMove}
    {d' : Driver} {r' : Regs} (inv : HandshakeInv c given s)
    (action : driverStep c.numQueues given move s.driver s.regs = some (d', r')) :
    HandshakeInv c given ⟨s.dev, r', d'⟩ := by
  obtain ⟨deviceSel, driverSel, phase⟩ := inv
  unfold driverStep at action
  generalize at_pc : s.driver.pc = pc at phase action
  cases pc with
  | start =>
      obtain ⟨status, waiting, seen, calm⟩ := phase
      cases move with
      | setDriver =>
          obtain ⟨rfl, rfl⟩ := Prod.mk.inj (Option.some.inj action)
          exact ⟨deviceSel, driverSel, by rw [status]; rfl, .inl waiting, seen, calm⟩
      | readGeneration =>
          obtain ⟨rfl, rfl⟩ := Prod.mk.inj (Option.some.inj action)
          exact ⟨deviceSel, driverSel, status, waiting, fun v h => (Option.some.inj h).symm, calm⟩
      | _ => simp at action
  | features =>
      obtain ⟨status, idle, seen, calm⟩ := phase
      cases move with
      | selectDeviceFeatures high =>
          obtain ⟨rfl, rfl⟩ := Prod.mk.inj (Option.some.inj action)
          refine ⟨selector_lt high, driverSel, ?_⟩
          rw [at_pc]
          exact ⟨status, idle, seen, calm⟩
      | selectDriverFeatures high =>
          obtain ⟨rfl, rfl⟩ := Prod.mk.inj (Option.some.inj action)
          refine ⟨deviceSel, selector_lt high, ?_⟩
          rw [at_pc]
          exact ⟨status, idle, seen, calm⟩
      | request g =>
          simp only [Option.ite_none_right_eq_some, Option.some.injEq] at action
          obtain ⟨fresh, eq⟩ := action
          obtain ⟨rfl, rfl⟩ := Prod.mk.inj eq
          exact ⟨deviceSel, driverSel, status, .inl ⟨rfl, seen.fresh fresh calm, .inl idle⟩⟩
      | setFeaturesOk =>
          obtain ⟨rfl, rfl⟩ := Prod.mk.inj (Option.some.inj action)
          exact ⟨deviceSel, driverSel, by rw [status]; rfl,
            fun q lt => absurd lt (Nat.not_lt_zero q), .features rfl idle, seen, calm⟩
      | readGeneration =>
          obtain ⟨rfl, rfl⟩ := Prod.mk.inj (Option.some.inj action)
          exact ⟨deviceSel, driverSel, status, idle, fun v h => (Option.some.inj h).symm, calm⟩
      | _ => simp at action
  | featuresWait g =>
      obtain ⟨status, pending⟩ := phase
      cases move with
      | readGeneration =>
          obtain ⟨rfl, rfl⟩ := Prod.mk.inj (Option.some.inj action)
          refine ⟨deviceSel, driverSel, ?_⟩
          rcases pending with ⟨current, rest⟩ | ⟨changed, calm, idle⟩
          · rw [if_neg (not_not.mpr current)]
            exact ⟨status, .inl ⟨current, rest⟩⟩
          · rw [if_pos changed]
            exact ⟨status, idle, fun v h => (Option.some.inj h).symm, calm⟩
      | _ => simp at action
  | queue q =>
      obtain ⟨status, recorded, idle, seen, calm⟩ := phase
      cases move with
      | request g =>
          simp only [Option.ite_none_right_eq_some, Option.some.injEq] at action
          obtain ⟨⟨lt, prepared, fresh⟩, eq⟩ := action
          obtain ⟨rfl, rfl⟩ := Prod.mk.inj eq
          exact ⟨deviceSel, driverSel, status, lt, prepared,
            .inl ⟨rfl, seen.fresh fresh calm, recorded, .inl idle⟩⟩
      | setDriverOk =>
          simp only [Option.ite_none_right_eq_some, Option.some.injEq] at action
          obtain ⟨rfl, eq⟩ := action
          obtain ⟨rfl, rfl⟩ := Prod.mk.inj eq
          exact ⟨deviceSel, driverSel, by rw [status]; rfl, recorded, idle, calm⟩
      | readGeneration =>
          obtain ⟨rfl, rfl⟩ := Prod.mk.inj (Option.some.inj action)
          exact ⟨deviceSel, driverSel, status, recorded, idle, fun v h => (Option.some.inj h).symm, calm⟩
      | storeSelect | storeHigh area | storeLow area =>
          simp only [Option.ite_none_right_eq_some, Option.some.injEq] at action
          obtain ⟨-, eq⟩ := action
          obtain ⟨rfl, rfl⟩ := Prod.mk.inj eq
          refine ⟨deviceSel, driverSel, ?_⟩
          rw [at_pc]
          exact ⟨status, recorded, idle, seen, calm⟩
      | _ => simp at action
  | queueWait q g =>
      obtain ⟨status, lt, prepared, pending⟩ := phase
      cases move with
      | readGeneration =>
          obtain ⟨rfl, rfl⟩ := Prod.mk.inj (Option.some.inj action)
          refine ⟨deviceSel, driverSel, ?_⟩
          rcases pending with ⟨current, rest⟩ | ⟨changed, calm, recorded, idle⟩
          · rw [if_neg (not_not.mpr current)]
            exact ⟨status, lt, prepared, .inl ⟨current, rest⟩⟩
          · rw [if_pos changed]
            exact ⟨status, recorded, idle, fun v h => (Option.some.inj h).symm, calm⟩
      | _ => simp at action
  | done =>
      obtain ⟨status, recorded, idle, calm⟩ := phase
      cases move with
      | readGeneration =>
          obtain ⟨rfl, rfl⟩ := Prod.mk.inj (Option.some.inj action)
          exact ⟨deviceSel, driverSel, status, recorded, idle, calm⟩
      | _ => simp at action

/-! ## Runs -/

theorem handshake_step {c : Config} {given : Given} {s t : Handshake} {party : Party}
    (inv : HandshakeInv c given s) (clear : FeatureLoopClear s party)
    (action : (handshake c given).step party s = some t) : HandshakeInv c given t := by
  cases party with
  | device =>
      obtain ⟨⟨dev', r'⟩, moved, rfl⟩ := Option.map_eq_some_iff.mp action
      have same := setupStep_keeps moved
      exact ⟨same.deviceFeaturesSel ▸ inv.deviceSel, same.driverFeaturesSel ▸ inv.driverSel,
        inv.phase.device inv.deviceSel inv.driverSel (fun early => clear ⟨rfl, early⟩) moved⟩
  | driver move =>
      obtain ⟨⟨d', r'⟩, moved, rfl⟩ := Option.map_eq_some_iff.mp action
      exact driverStep_inv inv moved

theorem FeatIdle.not_returned {pc : SetupPc} (idle : FeatIdle pc) : pc ≠ .returned := by
  rcases idle with rfl | rfl | rfl <;> simp

theorem FeatBusy.not_returned {pc : SetupPc} (busy : FeatBusy pc) : pc ≠ .returned := by
  cases busy <;> simp

theorem QueueBusy.not_returned {given : Given} {q : Nat} {dev : Setup}
    (busy : QueueBusy given q dev) : dev.pc ≠ .returned := by
  cases busy <;> simp [*]

theorem QueueIdle.returned {c : Config} {given : Given} {n : Nat} {dev : Setup}
    (idle : QueueIdle c given n dev) (returned : dev.pc = .returned) :
    ∀ q < c.numQueues.toNat, ∀ area, dev.pointer area q = c.hostPointer (given area q) := by
  cases idle with
  | features _ idle => exact absurd returned idle.not_returned
  | mapped eq _ mapped => exact eq ▸ mapped
  | _ => simp_all

theorem HandshakeInv.recorded {c : Config} {given : Given} {s : Handshake}
    (inv : HandshakeInv c given s) :
    Recorded given (s.driver.acknowledged c.numQueues) s.dev := by
  obtain ⟨-, -, phase⟩ := inv
  unfold Driver.acknowledged
  generalize s.driver.pc = pc at phase
  cases pc with
  | start | features | featuresWait g => exact fun q lt => absurd lt (Nat.not_lt_zero q)
  | queue q => exact phase.2.1
  | queueWait q g =>
      obtain ⟨-, -, -, ⟨-, -, recorded, -⟩ | ⟨-, -, recorded, -⟩⟩ := phase
      · exact recorded
      · exact fun i lt => recorded i (Nat.lt_succ_of_lt lt)
  | done => exact phase.2.1

theorem HandshakeInv.returned {c : Config} {given : Given} {s : Handshake}
    (inv : HandshakeInv c given s) (returned : s.dev.pc = .returned) :
    ∀ q < c.numQueues.toNat, ∀ area, s.dev.pointer area q = c.hostPointer (given area q) := by
  obtain ⟨-, -, phase⟩ := inv
  generalize s.driver.pc = pc at phase
  cases pc with
  | start => simp [phase.2.1] at returned
  | features => exact absurd returned phase.2.1.not_returned
  | featuresWait g =>
      obtain ⟨-, ⟨-, -, idle | ⟨busy, -⟩⟩ | ⟨-, -, idle⟩⟩ := phase
      · exact absurd returned idle.not_returned
      · exact absurd returned busy.not_returned
      · exact absurd returned idle.not_returned
  | queue q => exact phase.2.2.1.returned returned
  | queueWait q g =>
      obtain ⟨-, -, -, ⟨-, -, -, idle | ⟨busy, -⟩⟩ | ⟨-, -, -, idle⟩⟩ := phase
      · exact idle.returned returned
      · exact absurd returned busy.not_returned
      · exact idle.returned returned
  | done => exact phase.2.2.1.returned returned

theorem HandshakeInv.safe {c : Config} {given : Given} {s : Handshake}
    (inv : HandshakeInv c given s) : HandshakeSafe c given s :=
  ⟨inv.recorded, inv.returned⟩

theorem handshake_inv {c : Config} {given : Given} {s : Handshake}
    (reachable : (handshake c given).ReachableUnder FeatureLoopClear s) :
    HandshakeInv c given s := by
  refine reachable.invariant ?_ fun s t party inv clear action => handshake_step inv clear action
  rintro s rfl
  exact ⟨Nat.zero_lt_two, Nat.zero_lt_two, rfl, rfl, fun v h => absurd h (by simp), rfl⟩

theorem handshake_safe_when_clear {c : Config} {given : Given} {s : Handshake}
    (reachable : (handshake c given).ReachableUnder FeatureLoopClear s) : HandshakeSafe c given s :=
  (handshake_inv reachable).safe

/-! ## Two runs of a block device -/

def blkConfig : Config := virtioBlk 0x400030000000 0x7f0000000000 33

def blkGiven : Given := fun area _ =>
  match area with
  | .desc => 0x400080000000
  | .avail => 0x400080040000
  | .used => 0x400080050000

def blkStart : Handshake := ⟨.start, .constructed blkConfig, ⟨.start, none⟩⟩

def storeQueue (g : U32) : List Party :=
  [.driver .storeSelect, .driver (.storeHigh .desc), .driver (.storeLow .desc),
    .driver (.storeHigh .avail), .driver (.storeLow .avail), .driver (.storeHigh .used),
    .driver (.storeLow .used), .driver .readGeneration, .driver (.request g)]

def orderlyRun : List Party :=
  [.driver .setDriver, .device, .driver .setFeaturesOk, .device, .device, .device] ++
    storeQueue 1 ++ List.replicate 11 .device ++
    [.driver .readGeneration, .driver .setDriverOk, .device]

theorem handshake_safe_orderly :
    ∃ s, (handshake blkConfig blkGiven).runUnder FeatureLoopClear orderlyRun blkStart = some s ∧
      s.dev.pc = .returned ∧ HandshakeSafe blkConfig blkGiven s := by
  have run : ∃ s, (handshake blkConfig blkGiven).runUnder FeatureLoopClear orderlyRun blkStart =
      some s ∧ s.dev.pc = .returned := ⟨_, rfl, rfl⟩
  obtain ⟨s, action, returned⟩ := run
  have initial : (handshake blkConfig blkGiven).ReachableUnder FeatureLoopClear blkStart :=
    .start rfl
  exact ⟨s, action, returned, handshake_safe_when_clear (initial.runUnder _ action)⟩

/-- Both arrive after the test of the status and before `sel_generation` is sampled again. -/
def earlyRun : List Party :=
  [.driver .setDriver, .device, .device, .device, .driver .setFeaturesOk] ++ storeQueue 1 ++
    List.replicate 6 .device ++ [.driver .readGeneration]

theorem handshake_loses_queue :
    ¬∀ s, (handshake blkConfig blkGiven).Reachable s → HandshakeSafe blkConfig blkGiven s := by
  intro safe
  have run : ∃ s, (handshake blkConfig blkGiven).run earlyRun blkStart = some s ∧
      s.driver.pc = .queue 1 ∧ s.dev.address .desc 0 = 0 := ⟨_, rfl, rfl, rfl⟩
  obtain ⟨s, action, acknowledged, unrecorded⟩ := run
  have initial : (handshake blkConfig blkGiven).Reachable blkStart := .start rfl
  have recorded := (safe s (initial.run _ action)).recorded 0
    (by simp [Driver.acknowledged, acknowledged]) .desc
  rw [unrecorded] at recorded
  exact absurd recorded (by decide)

end TtBhLinux.Virtio
