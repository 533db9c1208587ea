import TtBhLinux.Virtio.Handshake

/-!
# The feature stage

The feature loop of `device_setup` against a driver that makes one request at a time and counts the
acknowledgements of each.
-/

namespace TtBhLinux.Virtio
open Common

inductive FeatureDriverPc
  | start
  | idle (device driver : Option Bool)
  | waiting (device : Bool) (g : U32)
  | changed (device : Bool)
  | finished
  deriving DecidableEq

structure FeatureDriver where
  pc : FeatureDriverPc
  seen : Option U32
  requests : Nat
  answers : List (Bool × U32)

inductive FeatureMove
  | setDriver
  | selectDeviceFeatures (high : Bool)
  | selectDriverFeatures (high : Bool)
  | readGeneration
  | request (g : U32)
  | readFeatures
  | setFeaturesOk
  deriving DecidableEq

def featureDriverStep (move : FeatureMove) (d : FeatureDriver) (r : Regs) :
    Option (FeatureDriver × Regs) :=
  match d.pc, move with
  | .start, .setDriver =>
      some ({ d with pc := .idle none none }, { r with status := r.status ||| statusDriver })
  | .idle _ driver, .selectDeviceFeatures high =>
      some ({ d with pc := .idle (some high) driver }, { r with deviceFeaturesSel := selector high })
  | .idle device _, .selectDriverFeatures high =>
      some ({ d with pc := .idle device (some high) }, { r with driverFeaturesSel := selector high })
  | .idle (some device) (some _), .request g =>
      if d.seen.any (· ≠ g) then
        some ({ d with pc := .waiting device g, requests := d.requests + 1 },
          { r with selGeneration := g })
      else none
  | .idle _ _, .setFeaturesOk =>
      some ({ d with pc := .finished }, { r with status := r.status ||| statusFeaturesOk })
  | .waiting device g, .readGeneration =>
      some ({ d with
        pc := if r.selGeneration ≠ g then .changed device else .waiting device g
        seen := some r.selGeneration }, r)
  | .changed device, .readFeatures =>
      some ({ d with
        pc := .idle none none, answers := d.answers ++ [(device, r.deviceFeatures)] }, r)
  | .start, .readGeneration | .idle _ _, .readGeneration | .changed _, .readGeneration
  | .finished, .readGeneration => some ({ d with seen := some r.selGeneration }, r)
  | _, _ => none

structure FeatureStage where
  dev : Setup
  regs : Regs
  driver : FeatureDriver
  /-- How often the device has stored `sel_generation` since the request with this number. -/
  acknowledged : Nat → Nat

inductive FeatureLabel
  | device (exit : Bool)
  | driver (move : FeatureMove)
  deriving DecidableEq

def acknowledge (s : FeatureStage) : Nat → Nat :=
  if s.dev.pc = .featAck then
    Function.update s.acknowledged (s.driver.requests - 1)
      (s.acknowledged (s.driver.requests - 1) + 1)
  else s.acknowledged

/-- The stage is over once the device has left the feature loop. -/
def featureStage (c : Config) : System FeatureStage FeatureLabel where
  init s := s = ⟨.start, .constructed c, ⟨.start, none, 0, []⟩, fun _ => 0⟩
  step
    | .device exit, s =>
        if s.dev.pc = .resize then none
        else (setupStep c exit s.dev s.regs).map fun (dev, regs) =>
          { s with dev, regs, acknowledged := acknowledge s }
    | .driver move, s => (featureDriverStep move s.driver s.regs).map fun (driver, regs) =>
        { s with driver, regs }

def featureIndex (high : Bool) : Fin 2 := ⟨(selector high).toNat, selector_lt high⟩

def FeatureStage.Pending (s : FeatureStage) : Prop :=
  ∃ device g, s.driver.pc = .waiting device g ∧ s.regs.selGeneration = g

/-- The driver has seen the change, or its next load of `sel_generation` will show it. -/
def FeatureStage.Answered (s : FeatureStage) (device : Bool) : Prop :=
  s.driver.pc = .changed device ∨
    ∃ g, s.driver.pc = .waiting device g ∧ s.regs.selGeneration ≠ g

structure FeatureSafe (c : Config) (s : FeatureStage) : Prop where
  answered : ∀ device, s.Answered device →
    s.regs.deviceFeatures = c.deviceFeaturesList (featureIndex device)
  answers : ∀ answer ∈ s.driver.answers, answer.2 = c.deviceFeaturesList (featureIndex answer.1)
  once : ∀ i < s.driver.requests,
    s.acknowledged i = 1 ∨ i + 1 = s.driver.requests ∧ s.Pending ∧ s.acknowledged i = 0
  never_early : ∀ i, s.driver.requests ≤ i → s.acknowledged i = 0
  unchanged : ¬s.Pending → ∀ exit t, (featureStage c).step (.device exit) s = some t →
    t.regs.selGeneration = s.regs.selGeneration
  remembered : ¬s.Pending → s.dev.prevSelGeneration = s.regs.selGeneration
  served : s.Pending → s.dev.pc ≠ .resize → ∀ labels t, (featureStage c).run labels s = some t →
    FeatureLabel.device true ∉ labels → 7 ≤ labels.count (.device false) →
    t.acknowledged (s.driver.requests - 1) = 1

/-! ## The invariant -/

def FeatureIdle (pc : SetupPc) : Prop := FeatIdle pc ∨ pc = .resize

inductive Answering (features : U32) (r : Regs) : SetupPc → Prop
  | deviceSel : Answering features r .featDeviceSel
  | device : Answering features r (.featDevice features)
  | driverSel : r.deviceFeatures = features → Answering features r .featDriverSel
  | driver (word : U32) : r.deviceFeatures = features → Answering features r (.featDriver word)
  | ack : r.deviceFeatures = features → Answering features r .featAck

structure Calm (s : FeatureStage) : Prop where
  idle : FeatureIdle s.dev.pc
  same : s.dev.prevSelGeneration = s.regs.selGeneration
  once : ∀ i < s.driver.requests, s.acknowledged i = 1

structure Busy (c : Config) (s : FeatureStage) (device : Bool) (g : U32) : Prop where
  stored : s.regs.selGeneration = g
  fresh : g ≠ s.dev.prevSelGeneration
  number : 0 < s.driver.requests
  earlier : ∀ i, i + 1 < s.driver.requests → s.acknowledged i = 1
  latest : s.acknowledged (s.driver.requests - 1) = 0
  pc : FeatureIdle s.dev.pc ∨
    Answering (c.deviceFeaturesList (featureIndex device)) s.regs s.dev.pc ∧
      s.dev.currSelGeneration = g

def FeatureDriver.SeenCurrent (d : FeatureDriver) (r : Regs) : Prop :=
  ∀ v ∈ d.seen, v = r.selGeneration

def FeaturePhase (c : Config) (s : FeatureStage) : FeatureDriverPc → Prop
  | .start => s.regs.status = 0 ∧ s.driver.SeenCurrent s.regs ∧ Calm s
  | .idle device _ => s.regs.status = 2 ∧ s.driver.SeenCurrent s.regs ∧ Calm s ∧
      ∀ high ∈ device, s.regs.deviceFeaturesSel = selector high
  | .waiting device g => s.regs.status = 2 ∧ s.regs.deviceFeaturesSel = selector device ∧
      (Busy c s device g ∨ s.regs.selGeneration ≠ g ∧ Calm s ∧
        s.regs.deviceFeatures = c.deviceFeaturesList (featureIndex device))
  | .changed device => s.regs.status = 2 ∧ s.driver.SeenCurrent s.regs ∧ Calm s ∧
      s.regs.deviceFeatures = c.deviceFeaturesList (featureIndex device)
  | .finished => Calm s

structure FeatureInv (c : Config) (s : FeatureStage) : Prop where
  driverSel : s.regs.driverFeaturesSel.toNat < 2
  answers : ∀ answer ∈ s.driver.answers, answer.2 = c.deviceFeaturesList (featureIndex answer.1)
  later : ∀ i, s.driver.requests ≤ i → s.acknowledged i = 0
  phase : FeaturePhase c s s.driver.pc

/-! ## Device steps -/

theorem FeatureIdle.step {c : Config} {exit : Bool} {dev dev' : Setup} {r r' : Regs}
    (idle : FeatureIdle dev.pc) (inside : dev.pc ≠ .resize)
    (action : setupStep c exit dev r = some (dev', r')) :
    r' = r ∧ dev'.prevSelGeneration = dev.prevSelGeneration ∧ (FeatureIdle dev'.pc ∨
      r.selGeneration ≠ dev.prevSelGeneration ∧ dev'.pc = .featDeviceSel ∧
        dev'.currSelGeneration = r.selGeneration) := by
  unfold setupStep at action
  rcases idle with (pc | pc | pc) | pc
  · rw [pc] at action
    obtain ⟨rfl, rfl⟩ := Prod.mk.inj (Option.some.inj action)
    refine ⟨rfl, rfl, .inl (.inl ?_)⟩
    cases exit || r.hasStatus statusDriver
    · exact .inl rfl
    · exact .inr (.inl rfl)
  · rw [pc] at action
    cases exit with
    | true =>
        obtain ⟨rfl, rfl⟩ := Prod.mk.inj (Option.some.inj action)
        exact ⟨rfl, rfl, .inl (.inr rfl)⟩
    | false =>
        obtain ⟨rfl, rfl⟩ := Prod.mk.inj (Option.some.inj action)
        refine ⟨rfl, rfl, ?_⟩
        by_cases same : r.selGeneration = dev.prevSelGeneration
        · exact .inl (.inl (.inr (.inr (by simp [same]))))
        · exact .inr ⟨same, by simp [same], rfl⟩
  · rw [pc] at action
    obtain ⟨rfl, rfl⟩ := Prod.mk.inj (Option.some.inj action)
    refine ⟨rfl, rfl, .inl ?_⟩
    cases r.hasStatus statusFeaturesOk
    · exact .inl (.inr (.inl rfl))
    · exact .inr rfl
  · exact absurd pc inside

theorem Answering.step {c : Config} {exit : Bool} {device : Bool} {dev dev' : Setup} {r r' : Regs}
    (answering : Answering (c.deviceFeaturesList (featureIndex device)) r dev.pc)
    (deviceSel : r.deviceFeaturesSel = selector device) (driverSel : r.driverFeaturesSel.toNat < 2)
    (action : setupStep c exit dev r = some (dev', r')) :
    (dev.pc ≠ .featAck ∧ Answering (c.deviceFeaturesList (featureIndex device)) r' dev'.pc ∧
        r'.selGeneration = r.selGeneration ∧ dev'.prevSelGeneration = dev.prevSelGeneration ∧
        dev'.currSelGeneration = dev.currSelGeneration) ∨
      (dev.pc = .featAck ∧ FeatureIdle dev'.pc ∧ r'.selGeneration = dev.currSelGeneration + 1 ∧
        dev'.prevSelGeneration = dev.currSelGeneration + 1 ∧
        r'.deviceFeatures = c.deviceFeaturesList (featureIndex device)) := by
  unfold setupStep at action
  generalize at_pc : dev.pc = pc at answering action
  cases answering with
  | deviceSel =>
      obtain ⟨rfl, rfl⟩ := Prod.mk.inj (Option.some.inj action)
      refine .inl ⟨by simp, ?_, rfl, rfl, rfl⟩
      have bound : r.deviceFeaturesSel.toNat < 2 := deviceSel ▸ selector_lt device
      have index : (⟨r.deviceFeaturesSel.toNat, bound⟩ : Fin 2) = featureIndex device := by
        simp only [featureIndex, deviceSel]
      simp only [bound, dif_pos, index]
      exact .device
  | device =>
      obtain ⟨rfl, rfl⟩ := Prod.mk.inj (Option.some.inj action)
      exact .inl ⟨by simp, .driverSel rfl, rfl, rfl, rfl⟩
  | driverSel stored =>
      obtain ⟨rfl, rfl⟩ := Prod.mk.inj (Option.some.inj action)
      refine .inl ⟨by simp, ?_, rfl, rfl, rfl⟩
      simp only [driverSel, dif_pos]
      exact .driver _ stored
  | driver word stored =>
      obtain ⟨rfl, rfl⟩ := Prod.mk.inj (Option.some.inj action)
      exact .inl ⟨by simp, .ack stored, rfl, rfl, rfl⟩
  | ack stored =>
      obtain ⟨rfl, rfl⟩ := Prod.mk.inj (Option.some.inj action)
      exact .inr ⟨rfl, .inl (.inr (.inr rfl)), rfl, rfl, stored⟩

theorem FeatureIdle.not_ack {pc : SetupPc} (idle : FeatureIdle pc) : pc ≠ .featAck := by
  rcases idle with (rfl | rfl | rfl) | rfl <;> simp

theorem Calm.step {c : Config} {exit : Bool} {s : FeatureStage} {dev' : Setup} {r' : Regs}
    (calm : Calm s) (inside : s.dev.pc ≠ .resize)
    (action : setupStep c exit s.dev s.regs = some (dev', r')) :
    r' = s.regs ∧ acknowledge s = s.acknowledged ∧ Calm ⟨dev', r', s.driver, acknowledge s⟩ := by
  obtain ⟨rfl, prev, idle | ⟨ne, -, -⟩⟩ := calm.idle.step inside action
  · have kept : acknowledge s = s.acknowledged := if_neg calm.idle.not_ack
    exact ⟨rfl, kept, idle, prev.trans calm.same, kept ▸ calm.once⟩
  · exact absurd calm.same.symm ne

theorem acknowledge_ack {s : FeatureStage} (pc : s.dev.pc = .featAck) {i : Nat} :
    acknowledge s i = if i = s.driver.requests - 1 then s.acknowledged i + 1 else
      s.acknowledged i := by
  rw [acknowledge, if_pos pc, Function.update_apply]
  split <;> rename_i same
  · rw [same]
  · rfl

theorem Busy.step {c : Config} {exit : Bool} {s : FeatureStage} {device : Bool} {g : U32}
    {dev' : Setup} {r' : Regs} (busy : Busy c s device g)
    (deviceSel : s.regs.deviceFeaturesSel = selector device)
    (driverSel : s.regs.driverFeaturesSel.toNat < 2) (inside : s.dev.pc ≠ .resize)
    (action : setupStep c exit s.dev s.regs = some (dev', r')) :
    Busy c ⟨dev', r', s.driver, acknowledge s⟩ device g ∨
      s.dev.pc = .featAck ∧ r'.selGeneration ≠ g ∧
        Calm ⟨dev', r', s.driver, acknowledge s⟩ ∧
        r'.deviceFeatures = c.deviceFeaturesList (featureIndex device) := by
  obtain ⟨stored, fresh, number, earlier, latest, idle | ⟨answering, sampled⟩⟩ := busy
  · have kept : acknowledge s = s.acknowledged := if_neg idle.not_ack
    obtain ⟨rfl, prev, next⟩ := idle.step inside action
    refine .inl ⟨stored, prev ▸ fresh, number, kept ▸ earlier, kept ▸ latest, ?_⟩
    rcases next with idle | ⟨-, pc, curr⟩
    · exact .inl idle
    · exact .inr ⟨by simpa [pc] using .deviceSel, curr.trans stored⟩
  · rcases answering.step deviceSel driverSel action with
      ⟨not_ack, answering, gen, prev, curr⟩ | ⟨ack, idle, gen, prev, features⟩
    · have kept : acknowledge s = s.acknowledged := if_neg not_ack
      exact .inl ⟨gen.trans stored, prev ▸ fresh, number, kept ▸ earlier, kept ▸ latest,
        .inr ⟨answering, curr.trans sampled⟩⟩
    · have next : r'.selGeneration ≠ g := by
        rw [gen, sampled]
        exact add_one_ne g
      refine .inr ⟨ack, next, ⟨idle, prev.trans gen.symm, ?_⟩, features⟩
      intro i lt
      have lt : i < s.driver.requests := lt
      show acknowledge s i = 1
      rw [acknowledge_ack ack]
      split <;> rename_i same
      · rw [same, latest]
      · exact earlier i (by omega)

theorem Calm.later {s : FeatureStage} (calm : Calm s)
    (later : ∀ i, s.driver.requests ≤ i → s.acknowledged i = 0) {exit : Bool} {c : Config}
    {dev' : Setup} {r' : Regs} (inside : s.dev.pc ≠ .resize)
    (action : setupStep c exit s.dev s.regs = some (dev', r')) :
    ∀ i, s.driver.requests ≤ i → acknowledge s i = 0 := by
  rw [(calm.step inside action).2.1]
  exact later

theorem featureDevice_inv {c : Config} {exit : Bool} {s : FeatureStage} {dev' : Setup} {r' : Regs}
    (inv : FeatureInv c s) (inside : s.dev.pc ≠ .resize)
    (action : setupStep c exit s.dev s.regs = some (dev', r')) :
    FeatureInv c ⟨dev', r', s.driver, acknowledge s⟩ := by
  obtain ⟨driverSel, answers, later, phase⟩ := inv
  have same := setupStep_keeps action
  have driverSel' : r'.driverFeaturesSel.toNat < 2 := same.driverFeaturesSel ▸ driverSel
  generalize at_pc : s.driver.pc = pc at phase
  have goal (phase' : FeaturePhase c ⟨dev', r', s.driver, acknowledge s⟩ pc)
      (later' : ∀ i, s.driver.requests ≤ i → acknowledge s i = 0) :
      FeatureInv c ⟨dev', r', s.driver, acknowledge s⟩ :=
    ⟨driverSel', answers, later', by rw [at_pc]; exact phase'⟩
  cases pc with
  | start =>
      obtain ⟨status, seen, calm⟩ := phase
      obtain ⟨rfl, -, calm'⟩ := calm.step inside action
      exact goal ⟨status, seen, calm'⟩ (calm.later later inside action)
  | idle device driver =>
      obtain ⟨status, seen, calm, deviceSel⟩ := phase
      obtain ⟨rfl, -, calm'⟩ := calm.step inside action
      exact goal ⟨status, seen, calm', deviceSel⟩ (calm.later later inside action)
  | waiting device g =>
      obtain ⟨status, deviceSel, busy | ⟨changed, calm, features⟩⟩ := phase
      · have later' : ∀ i, s.driver.requests ≤ i → acknowledge s i = 0 := by
          intro i le
          have number := busy.number
          by_cases ack : s.dev.pc = .featAck
          · rw [acknowledge_ack ack, if_neg (by omega)]
            exact later i le
          · rw [acknowledge, if_neg ack]
            exact later i le
        have next := busy.step deviceSel driverSel inside action
        exact goal ⟨same.status.trans status, same.deviceFeaturesSel.trans deviceSel,
          next.imp_right And.right⟩ later'
      · obtain ⟨rfl, -, calm'⟩ := calm.step inside action
        exact goal ⟨status, deviceSel, .inr ⟨changed, calm', features⟩⟩
          (calm.later later inside action)
  | changed device =>
      obtain ⟨status, seen, calm, features⟩ := phase
      obtain ⟨rfl, -, calm'⟩ := calm.step inside action
      exact goal ⟨status, seen, calm', features⟩ (calm.later later inside action)
  | finished =>
      obtain ⟨rfl, -, calm'⟩ := Calm.step phase inside action
      exact goal calm' (Calm.later phase later inside action)

/-! ## Driver steps -/

theorem FeatureDriver.SeenCurrent.fresh {d : FeatureDriver} {r : Regs} {g prev : U32}
    (seen : d.SeenCurrent r) (fresh : d.seen.any (· ≠ g) = true) (same : prev = r.selGeneration) :
    g ≠ prev := by
  cases read : d.seen with
  | none => simp [read] at fresh
  | some v =>
      have ne : v ≠ g := by simpa [read] using fresh
      rw [same, ← seen v read]
      exact ne.symm

theorem featureDriver_inv {c : Config} {s : FeatureStage} {move : FeatureMove} {d' : FeatureDriver}
    {r' : Regs} (inv : FeatureInv c s)
    (action : featureDriverStep move s.driver s.regs = some (d', r')) :
    FeatureInv c ⟨s.dev, r', d', s.acknowledged⟩ := by
  obtain ⟨driverSel, answers, later, phase⟩ := inv
  unfold featureDriverStep at action
  generalize s.driver.pc = pc at phase action
  cases pc with
  | start =>
      obtain ⟨status, seen, calm⟩ := phase
      cases move with
      | setDriver =>
          obtain ⟨rfl, rfl⟩ := Prod.mk.inj (Option.some.inj action)
          exact ⟨driverSel, answers, later, by rw [status]; rfl, seen,
            ⟨calm.idle, calm.same, calm.once⟩, by simp⟩
      | readGeneration =>
          obtain ⟨rfl, rfl⟩ := Prod.mk.inj (Option.some.inj action)
          exact ⟨driverSel, answers, later, status, fun v h => (Option.some.inj h).symm,
            calm.idle, calm.same, calm.once⟩
      | _ => simp at action
  | idle device driver =>
      obtain ⟨status, seen, calm, deviceSel⟩ := phase
      cases move with
      | selectDeviceFeatures high =>
          obtain ⟨rfl, rfl⟩ := Prod.mk.inj (Option.some.inj action)
          exact ⟨driverSel, answers, later, status, seen, ⟨calm.idle, calm.same, calm.once⟩,
            fun v h => by cases h; rfl⟩
      | selectDriverFeatures high =>
          obtain ⟨rfl, rfl⟩ := Prod.mk.inj (Option.some.inj action)
          exact ⟨selector_lt high, answers, later, status, seen,
            ⟨calm.idle, calm.same, calm.once⟩, deviceSel⟩
      | setFeaturesOk =>
          obtain ⟨rfl, rfl⟩ := Prod.mk.inj (Option.some.inj action)
          exact ⟨driverSel, answers, later, calm.idle, calm.same, calm.once⟩
      | readGeneration =>
          obtain ⟨rfl, rfl⟩ := Prod.mk.inj (Option.some.inj action)
          exact ⟨driverSel, answers, later, status, fun v h => (Option.some.inj h).symm,
            ⟨calm.idle, calm.same, calm.once⟩,
            deviceSel⟩
      | request g =>
          cases device with
          | none => simp at action
          | some device =>
              cases driver with
              | none => simp at action
              | some driver =>
                  simp only [Option.ite_none_right_eq_some, Option.some.injEq] at action
                  obtain ⟨fresh, eq⟩ := action
                  obtain ⟨rfl, rfl⟩ := Prod.mk.inj eq
                  refine ⟨driverSel, answers, fun i le => later i (Nat.le_of_succ_le le), status,
                    deviceSel device rfl, .inl ?_⟩
                  exact ⟨rfl, seen.fresh fresh calm.same, Nat.succ_pos _,
                    fun i lt => calm.once i (Nat.lt_of_succ_lt_succ lt), later _ le_rfl,
                    .inl calm.idle⟩
      | _ => simp at action
  | waiting device g =>
      obtain ⟨status, deviceSel, pending⟩ := phase
      cases move with
      | readGeneration =>
          obtain ⟨rfl, rfl⟩ := Prod.mk.inj (Option.some.inj action)
          refine ⟨driverSel, answers, later, ?_⟩
          rcases pending with ⟨stored, fresh, number, earlier, latest, pc⟩ | ⟨changed, calm, features⟩
          · rw [if_neg (not_not.mpr stored)]
            exact ⟨status, deviceSel, .inl ⟨stored, fresh, number, earlier, latest, pc⟩⟩
          · rw [if_pos changed]
            exact ⟨status, fun v h => (Option.some.inj h).symm,
              ⟨calm.idle, calm.same, calm.once⟩, features⟩
      | _ => simp at action
  | changed device =>
      obtain ⟨status, seen, calm, features⟩ := phase
      cases move with
      | readFeatures =>
          obtain ⟨rfl, rfl⟩ := Prod.mk.inj (Option.some.inj action)
          refine ⟨driverSel, ?_, later, status, seen, ⟨calm.idle, calm.same, calm.once⟩, by simp⟩
          intro answer member
          rcases List.mem_append.mp member with old | new
          · exact answers answer old
          · rw [List.mem_singleton.mp new]
            exact features
      | readGeneration =>
          obtain ⟨rfl, rfl⟩ := Prod.mk.inj (Option.some.inj action)
          exact ⟨driverSel, answers, later, status, fun v h => (Option.some.inj h).symm,
            ⟨calm.idle, calm.same, calm.once⟩,
            features⟩
      | _ => simp at action
  | finished =>
      have calm : Calm s := phase
      cases move with
      | readGeneration =>
          obtain ⟨rfl, rfl⟩ := Prod.mk.inj (Option.some.inj action)
          exact ⟨driverSel, answers, later, calm.idle, calm.same, calm.once⟩
      | _ => simp at action

/-! ## Runs -/

theorem feature_step {c : Config} {s t : FeatureStage} {label : FeatureLabel}
    (inv : FeatureInv c s) (action : (featureStage c).step label s = some t) : FeatureInv c t := by
  cases label with
  | device exit =>
      by_cases inside : s.dev.pc = .resize
      · simp [featureStage, inside] at action
      · simp only [featureStage, inside, if_false] at action
        obtain ⟨⟨dev', r'⟩, moved, rfl⟩ := Option.map_eq_some_iff.mp action
        exact featureDevice_inv inv inside moved
  | driver move =>
      obtain ⟨⟨d', r'⟩, moved, rfl⟩ := Option.map_eq_some_iff.mp action
      exact featureDriver_inv inv moved

theorem feature_inv {c : Config} {s : FeatureStage} (reachable : (featureStage c).Reachable s) :
    FeatureInv c s := by
  apply reachable.invariant
  · rintro s rfl
    exact ⟨Nat.zero_lt_two, by simp, fun _ _ => rfl, rfl, fun v h => absurd h (by simp),
      .inl (.inl rfl), rfl, fun i lt => absurd lt (Nat.not_lt_zero i)⟩
  · exact fun s t label inv _ action => feature_step inv action

theorem FeatureInv.busy {c : Config} {s : FeatureStage} (inv : FeatureInv c s)
    (pending : s.Pending) : ∃ device g, s.driver.pc = .waiting device g ∧ s.regs.status = 2 ∧
      s.regs.deviceFeaturesSel = selector device ∧ Busy c s device g := by
  obtain ⟨device, g, pc, stored⟩ := pending
  have phase := inv.phase
  rw [pc] at phase
  obtain ⟨status, deviceSel, busy | ⟨changed, -, -⟩⟩ := phase
  · exact ⟨device, g, pc, status, deviceSel, busy⟩
  · exact absurd stored changed

theorem FeatureInv.calm {c : Config} {s : FeatureStage} (inv : FeatureInv c s)
    (answered : ¬s.Pending) : Calm s := by
  have phase := inv.phase
  cases pc : s.driver.pc with
  | start =>
      rw [pc] at phase
      exact phase.2.2
  | idle device driver =>
      rw [pc] at phase
      exact phase.2.2.1
  | waiting device g =>
      rw [pc] at phase
      obtain ⟨-, -, busy | ⟨-, calm, -⟩⟩ := phase
      · exact absurd ⟨device, g, pc, busy.stored⟩ answered
      · exact calm
  | changed device =>
      rw [pc] at phase
      exact phase.2.2.1
  | finished =>
      rw [pc] at phase
      exact phase

theorem FeatureInv.answered {c : Config} {s : FeatureStage} (inv : FeatureInv c s) (device : Bool)
    (answered : s.Answered device) :
    s.regs.deviceFeatures = c.deviceFeaturesList (featureIndex device) := by
  have phase := inv.phase
  rcases answered with pc | ⟨g, pc, changed⟩
  · rw [pc] at phase
    exact phase.2.2.2
  · rw [pc] at phase
    obtain ⟨-, -, busy | ⟨-, -, features⟩⟩ := phase
    · exact absurd busy.stored changed
    · exact features

/-! ## Every request is served -/

def remaining : SetupPc → Nat
  | .waitDriver | .featStatus => 7
  | .featGen => 6
  | .featDeviceSel => 5
  | .featDevice _ => 4
  | .featDriverSel => 3
  | .featDriver _ => 2
  | .featAck => 1
  | .resize | .queueGen | .queueReady | .queueSelect | .queueHigh _ _ | .queueLow _ _ _
  | .queueAck _ | .pointers | .waitDriverOk | .returned | .fault _ _ => 0

theorem Busy.remaining_pos {c : Config} {s : FeatureStage} {device : Bool} {g : U32}
    (busy : Busy c s device g) (inside : s.dev.pc ≠ .resize) : 0 < remaining s.dev.pc := by
  rcases busy.pc with ((pc | pc | pc) | pc) | ⟨answering, -⟩
  · simp [pc, remaining]
  · simp [pc, remaining]
  · simp [pc, remaining]
  · exact absurd pc inside
  · generalize s.dev.pc = pc at answering
    cases answering <;> simp [remaining]

theorem Busy.closer {c : Config} {s : FeatureStage} {device : Bool} {g : U32} {dev' : Setup}
    {r' : Regs} (busy : Busy c s device g) (status : s.regs.status = 2)
    (deviceSel : s.regs.deviceFeaturesSel = selector device)
    (driverSel : s.regs.driverFeaturesSel.toNat < 2) (inside : s.dev.pc ≠ .resize)
    (not_ack : s.dev.pc ≠ .featAck)
    (action : setupStep c false s.dev s.regs = some (dev', r')) :
    dev'.pc ≠ .resize ∧ remaining dev'.pc < remaining s.dev.pc := by
  unfold setupStep at action
  have driver : s.regs.hasStatus statusDriver = true := by rw [hasStatus_of_eq status]; rfl
  have no_features : s.regs.hasStatus statusFeaturesOk = false := by
    rw [hasStatus_of_eq status]; rfl
  have stored := busy.stored
  have fresh := busy.fresh
  rcases busy.pc with ((pc | pc | pc) | pc) | ⟨answering, -⟩
  · rw [pc] at action
    obtain ⟨rfl, -⟩ := Prod.mk.inj (Option.some.inj action)
    simp [pc, driver, remaining]
  · rw [pc] at action
    obtain ⟨rfl, -⟩ := Prod.mk.inj (Option.some.inj action)
    simp [pc, stored, fresh, remaining]
  · rw [pc] at action
    obtain ⟨rfl, -⟩ := Prod.mk.inj (Option.some.inj action)
    simp [pc, no_features, remaining]
  · exact absurd pc inside
  · generalize s.dev.pc = pc at action answering not_ack
    cases answering with
    | deviceSel =>
        obtain ⟨rfl, -⟩ := Prod.mk.inj (Option.some.inj action)
        have bound : s.regs.deviceFeaturesSel.toNat < 2 := deviceSel ▸ selector_lt device
        simp [bound, remaining]
    | device =>
        obtain ⟨rfl, -⟩ := Prod.mk.inj (Option.some.inj action)
        simp [remaining]
    | driverSel _ =>
        obtain ⟨rfl, -⟩ := Prod.mk.inj (Option.some.inj action)
        simp [driverSel, remaining]
    | driver word _ =>
        obtain ⟨rfl, -⟩ := Prod.mk.inj (Option.some.inj action)
        simp [remaining]
    | ack _ => exact absurd rfl not_ack

theorem acknowledged_kept {c : Config} {s t : FeatureStage} {label : FeatureLabel}
    (inv : FeatureInv c s) {i : Nat} (once : s.acknowledged i = 1)
    (action : (featureStage c).step label s = some t) : t.acknowledged i = 1 := by
  cases label with
  | driver move =>
      obtain ⟨⟨d', r'⟩, -, rfl⟩ := Option.map_eq_some_iff.mp action
      exact once
  | device exit =>
      by_cases inside : s.dev.pc = .resize
      · simp [featureStage, inside] at action
      simp only [featureStage, inside, if_false] at action
      obtain ⟨⟨dev', r'⟩, -, rfl⟩ := Option.map_eq_some_iff.mp action
      show acknowledge s i = 1
      by_cases ack : s.dev.pc = .featAck
      · have pending : s.Pending := by
          by_contra answered
          exact (inv.calm answered).idle.not_ack ack
        obtain ⟨device, g, -, -, -, busy⟩ := inv.busy pending
        have latest := busy.latest
        rw [acknowledge_ack ack, if_neg fun same => by rw [← same, once] at latest; omega]
        exact once
      · rw [acknowledge, if_neg ack]
        exact once

theorem acknowledged_kept_run {c : Config} {s t : FeatureStage} (labels : List FeatureLabel)
    (inv : FeatureInv c s) {i : Nat} (once : s.acknowledged i = 1)
    (action : (featureStage c).run labels s = some t) : t.acknowledged i = 1 := by
  induction labels generalizing s with
  | nil =>
      cases action
      exact once
  | cons label rest ih =>
      obtain ⟨u, first, others⟩ := Option.bind_eq_some_iff.mp action
      exact ih (feature_step inv first) (acknowledged_kept inv once first) others

theorem driver_waits {s : FeatureStage} {device : Bool} {g : U32} {move : FeatureMove}
    {d' : FeatureDriver} {r' : Regs} (pc : s.driver.pc = .waiting device g)
    (stored : s.regs.selGeneration = g)
    (action : featureDriverStep move s.driver s.regs = some (d', r')) :
    r' = s.regs ∧ d'.pc = .waiting device g ∧ d'.requests = s.driver.requests := by
  unfold featureDriverStep at action
  rw [pc] at action
  cases move with
  | readGeneration =>
      obtain ⟨rfl, rfl⟩ := Prod.mk.inj (Option.some.inj action)
      exact ⟨rfl, by simp [stored], rfl⟩
  | _ => simp at action

theorem request_served {c : Config} (labels : List FeatureLabel) {s t : FeatureStage}
    (inv : FeatureInv c s) (pending : s.Pending) (inside : s.dev.pc ≠ .resize)
    (stays : FeatureLabel.device true ∉ labels)
    (enough : remaining s.dev.pc ≤ labels.count (.device false))
    (action : (featureStage c).run labels s = some t) :
    t.acknowledged (s.driver.requests - 1) = 1 := by
  induction labels generalizing s with
  | nil =>
      obtain ⟨device, g, -, -, -, busy⟩ := inv.busy pending
      have positive := busy.remaining_pos inside
      rw [List.count_nil] at enough
      omega
  | cons label rest ih =>
      obtain ⟨u, first, others⟩ := Option.bind_eq_some_iff.mp action
      have inv' := feature_step inv first
      have stays' : FeatureLabel.device true ∉ rest := fun h => stays (List.mem_cons_of_mem _ h)
      obtain ⟨device, g, pc, status, deviceSel, busy⟩ := inv.busy pending
      cases label with
      | driver move =>
          obtain ⟨⟨d', r'⟩, moved, rfl⟩ := Option.map_eq_some_iff.mp first
          obtain ⟨rfl, pc', same⟩ := driver_waits pc busy.stored moved
          rw [List.count_cons_of_ne (by simp)] at enough
          rw [← same]
          exact ih inv' ⟨device, g, pc', busy.stored⟩ inside stays' enough others
      | device exit =>
          cases exit with
          | true => exact absurd List.mem_cons_self stays
          | false =>
              simp only [featureStage, inside, if_false] at first
              obtain ⟨⟨dev', r'⟩, moved, rfl⟩ := Option.map_eq_some_iff.mp first
              rw [List.count_cons_self] at enough
              by_cases ack : s.dev.pc = .featAck
              · have once : acknowledge s (s.driver.requests - 1) = 1 := by
                  rw [acknowledge_ack ack, if_pos rfl, busy.latest]
                exact acknowledged_kept_run rest inv' once others
              · obtain ⟨inside', closer⟩ :=
                  busy.closer status deviceSel inv.driverSel inside ack moved
                rcases busy.step deviceSel inv.driverSel inside moved with busy' | ⟨now, -⟩
                · exact ih (s := ⟨dev', r', s.driver, acknowledge s⟩) inv'
                    ⟨device, g, pc, busy'.stored⟩ inside' stays'
                    (Nat.le_of_lt_succ (Nat.lt_of_lt_of_le closer enough)) others
                · exact absurd now ack

theorem features_answered {c : Config} {s : FeatureStage}
    (reachable : (featureStage c).Reachable s) : FeatureSafe c s := by
  have inv := feature_inv reachable
  refine ⟨inv.answered, inv.answers, ?_, inv.later, ?_, fun answered => (inv.calm answered).same,
    ?_⟩
  · intro i lt
    by_cases pending : s.Pending
    · obtain ⟨device, g, -, -, -, busy⟩ := inv.busy pending
      by_cases latest : i + 1 < s.driver.requests
      · exact .inl (busy.earlier i latest)
      · have last : i = s.driver.requests - 1 := by omega
        exact .inr ⟨by omega, pending, last ▸ busy.latest⟩
    · exact .inl ((inv.calm pending).once i lt)
  · intro answered exit t action
    by_cases inside : s.dev.pc = .resize
    · simp [featureStage, inside] at action
    · simp only [featureStage, inside, if_false] at action
      obtain ⟨⟨dev', r'⟩, moved, rfl⟩ := Option.map_eq_some_iff.mp action
      exact congrArg Regs.selGeneration ((inv.calm answered).step inside moved).1
  · intro pending inside labels t action stays enough
    have within : remaining s.dev.pc ≤ 7 := by
      cases s.dev.pc <;> simp [remaining]
    exact request_served labels inv pending inside stays (within.trans enough) action

/-- Two requests; the acknowledgement of the first wraps from 2^32 - 1 to 0. -/
def twoRequests : List FeatureLabel :=
  let setup : List FeatureLabel := [.driver .setDriver, .driver .readGeneration,
    .driver (.selectDeviceFeatures true), .driver (.selectDriverFeatures true), .device false]
  let device (n : Nat) : List FeatureLabel := List.replicate n (.device false)
  let answer : List FeatureLabel := [.driver .readGeneration, .driver .readFeatures]
  let second : List FeatureLabel := [.driver (.selectDriverFeatures false),
    .driver (.selectDeviceFeatures false), .driver (.request 7)]
  setup ++ .driver (.request 0xffffffff) :: device 6 ++ answer ++ second ++ device 7 ++ answer

theorem features_answered_wrapping :
    ∃ s, (featureStage blkConfig).run twoRequests
        ⟨.start, .constructed blkConfig, ⟨.start, none, 0, []⟩, fun _ => 0⟩ = some s ∧
      s.driver.answers = [(true, 1), (false, 0)] ∧ FeatureSafe blkConfig s := by
  have run : ∃ s, (featureStage blkConfig).run twoRequests
      ⟨.start, .constructed blkConfig, ⟨.start, none, 0, []⟩, fun _ => 0⟩ = some s ∧
      s.driver.answers = [(true, 1), (false, 0)] := ⟨_, rfl, rfl⟩
  obtain ⟨s, action, answers⟩ := run
  have initial : (featureStage blkConfig).Reachable
      ⟨.start, .constructed blkConfig, ⟨.start, none, 0, []⟩, fun _ => 0⟩ := .start rfl
  exact ⟨s, action, answers, features_answered (initial.run _ action)⟩

end TtBhLinux.Virtio
