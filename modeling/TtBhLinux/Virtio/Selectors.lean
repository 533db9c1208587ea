import TtBhLinux.Virtio.Reset

/-!
# Selectors

`device_setup` indexes with what it loads from `device_features_sel`, `driver_features_sel` and
`queue_select`, without a check.
-/

namespace TtBhLinux.Virtio
open Common

def Indexed.limit (c : Config) : Indexed → Nat
  | .deviceFeaturesList | .driverFeaturesList => 2
  | .address _ => c.numQueues.toNat

def Setup.index (s : Setup) (r : Regs) : Option (Indexed × U32) :=
  match s.pc with
  | .featDeviceSel => some (.deviceFeaturesList, r.deviceFeaturesSel)
  | .featDriverSel => some (.driverFeaturesList, r.driverFeaturesSel)
  | .queueLow area q _ => some (.address area, q)
  | _ => none

def Setup.IndexInRange (c : Config) (s : Setup) (r : Regs) : Prop :=
  ∀ entry ∈ s.index r, entry.2.toNat < entry.1.limit c

def Setup.selector (c : Config) (s : Setup) (r : Regs) : Option (U32 × Nat) :=
  match s.pc with
  | .featDeviceSel => some (r.deviceFeaturesSel, 2)
  | .featDriverSel => some (r.driverFeaturesSel, 2)
  | .queueSelect => some (r.queueSelect, c.numQueues.toNat)
  | _ => none

def Setup.SelectorInRange (c : Config) (s : Setup) (r : Regs) : Prop :=
  ∀ entry ∈ s.selector c r, entry.1.toNat < entry.2

def SetupPc.queueSelectVal : SetupPc → Option U32
  | .queueHigh _ q | .queueLow _ q _ | .queueAck q => some q
  | _ => none

structure Setup.Selected (c : Config) (s : Setup) : Prop where
  queue : ∀ q ∈ s.pc.queueSelectVal, q.toNat < c.numQueues.toNat
  no_fault : ¬∃ array index, s.pc = .fault array index

section Setup
variable {c : Config} {exit : Bool} {s s' : Setup} {r r' : Regs}

theorem setupStep_no_fault (action : setupStep c exit s r = some (s', r'))
    (unindexed : s.index r = none) : ¬∃ array index, s'.pc = .fault array index := by
  rintro ⟨array, index, fault⟩
  unfold Setup.index at unindexed
  unfold setupStep at action
  cases at_pc : s.pc <;> simp only [at_pc, reduceCtorEq] at action unindexed
  all_goals try split at action
  all_goals
    obtain ⟨rfl, -⟩ := Prod.mk.inj (Option.some.inj action)
    simp only [ite_eq_iff, reduceCtorEq, and_false, or_self] at fault

theorem setupStep_fault_iff (action : setupStep c exit s r = some (s', r')) :
    (∃ array index, s'.pc = .fault array index) ↔ ¬s.IndexInRange c r := by
  cases indexed : s.index r with
  | none =>
      refine iff_of_false (setupStep_no_fault action indexed) (not_not.mpr ?_)
      simp [Setup.IndexInRange, indexed]
  | some entry =>
      simp only [Setup.IndexInRange, indexed, Option.mem_some_iff, forall_eq']
      unfold Setup.index at indexed
      cases at_pc : s.pc <;> simp only [at_pc, Option.some.injEq, reduceCtorEq] at indexed
      case featDeviceSel | featDriverSel =>
        subst indexed
        simp only [setupStep, at_pc, Option.some.injEq, Prod.mk.injEq] at action
        obtain ⟨rfl, -⟩ := action
        simp only [Indexed.limit]
        split <;> simp_all
      case queueLow area q high =>
        subst indexed
        simp only [setupStep, at_pc] at action
        split at action
        · rename_i below
          cases action
          have inside : q.toNat < c.numQueues.toNat := below
          cases area <;> simp [Area.next, inside, Indexed.limit]
        · rename_i above
          cases action
          exact iff_of_true ⟨_, _, rfl⟩ above

theorem setupStep_queue (action : setupStep c exit s r = some (s', r')) :
    s'.pc.queueSelectVal = none ∨ s'.pc.queueSelectVal = s.pc.queueSelectVal ∨
      s.selector c r = some (r.queueSelect, c.numQueues.toNat) ∧
        s'.pc.queueSelectVal = some r.queueSelect := by
  unfold setupStep at action
  cases at_pc : s.pc <;> simp only [at_pc, reduceCtorEq] at action
  case queueSelect =>
    cases action
    exact .inr (.inr ⟨by simp [Setup.selector, at_pc], rfl⟩)
  case queueHigh area q =>
    cases action
    exact .inr (.inl rfl)
  case queueLow area q high =>
    split at action
    · cases action
      cases area <;> exact .inr (.inl rfl)
    · cases action
      exact .inl rfl
  all_goals try split at action
  all_goals
    obtain ⟨rfl, -⟩ := Prod.mk.inj (Option.some.inj action)
    left
    dsimp only
    try split
  all_goals rfl

theorem Setup.Selected.indexInRange (selected : s.Selected c)
    (in_range : s.SelectorInRange c r) : s.IndexInRange c r := by
  intro entry indexed
  unfold Setup.index at indexed
  cases at_pc : s.pc <;> simp only [at_pc, Option.mem_some_iff, Option.not_mem_none] at indexed
  case featDeviceSel | featDriverSel =>
    subst indexed
    simpa [Setup.SelectorInRange, Setup.selector, at_pc, Indexed.limit] using in_range
  case queueLow area q high =>
    subst indexed
    exact selected.queue q (by simp [SetupPc.queueSelectVal, at_pc])

theorem Setup.Selected.step (selected : s.Selected c) (in_range : s.SelectorInRange c r)
    (action : setupStep c exit s r = some (s', r')) : s'.Selected c := by
  refine ⟨fun q loaded => ?_, fun fault =>
    (setupStep_fault_iff action).mp fault (selected.indexInRange in_range)⟩
  rcases setupStep_queue action with gone | kept | ⟨selects, selected'⟩
  · rw [gone] at loaded
    cases loaded
  · exact selected.queue q (kept ▸ loaded)
  · rw [selected'] at loaded
    cases loaded
    exact in_range _ selects

end Setup

/-! ## Whole runs -/

def Thread.IndexInRange {σ : Type*} (c : Config) (t : Thread σ) : Prop :=
  match t.stage with
  | .setup s _ => s.IndexInRange c t.shared.regs
  | _ => True

def Thread.selector {σ : Type*} (c : Config) (t : Thread σ) : Option (U32 × Nat) :=
  match t.stage with
  | .setup s _ => s.selector c t.shared.regs
  | _ => none

def SelectorsInRange {σ ρ : Type*} (c : Config) (t : Thread σ) : ThreadLabel σ ρ → Prop
  | .device _ _ => ∀ entry ∈ t.selector c, entry.1.toNat < entry.2
  | _ => True

instance {σ ρ : Type*} (c : Config) (t : Thread σ) :
    (label : ThreadLabel σ ρ) → Decidable (SelectorsInRange c t label)
  | .device _ _ => inferInstanceAs (Decidable (∀ entry ∈ t.selector c, entry.1.toNat < entry.2))
  | .construct _ | .storeStatus _ | .guest _ | .setExit => inferInstanceAs (Decidable True)

section
variable {σ ρ : Type*} {dev : Device σ ρ} {c : Config} {t t' : Thread σ}

def Thread.Selected (c : Config) (t : Thread σ) : Prop :=
  ∀ s d, t.stage = .setup s d → s.Selected c

theorem Thread.Selected.device {ready : Bool} {result : ρ} (selected : t.Selected c)
    (in_range : SelectorsInRange c t (.device ready result : ThreadLabel σ ρ))
    (action : t.device dev c ready result = some t') : t'.Selected c := by
  intro s' d' same
  cases device_cases action with
  | setup at_stage moved =>
      simp only [SelectorsInRange, Thread.selector, at_stage] at in_range
      cases same
      exact (selected _ _ at_stage).step in_range moved
  | enter _ _ | loop _ _ _ | leave _ _ => cases same

theorem construct_selected {device : σ} (action : t.construct c device = some t') :
    t'.Selected c := by
  unfold Thread.construct at action
  split at action
  · split at action
    · cases action
      intro _ _ same
      cases same
    · cases action
      intro _ _ same
      cases same
      refine ⟨fun _ loaded => absurd loaded (Option.not_mem_none _), ?_⟩
      rintro ⟨_, _, fault⟩
      cases fault
  · cases action

theorem lifecycle_selected
    (reachable : (lifecycle dev c).ReachableUnder (SelectorsInRange c) t) :
    t.Selected c := by
  apply reachable.invariant
  · rintro t ⟨constructing, -⟩ s d at_setup
    cases constructing.symm.trans at_setup
  · intro t t' label selected in_range action
    cases label with
    | construct device => exact construct_selected action
    | device ready result => exact selected.device in_range action
    | storeStatus value | guest shared | setExit =>
        cases Option.some.inj action
        exact selected

variable (dev) in
theorem device_step {s s' : Setup} {d : σ} {regs : Regs} (at_setup : t.stage = .setup s d)
    (running : s.pc ≠ .returned) (ready : Bool) (result : ρ)
    (moved : setupStep c t.exit_thread_flag s t.shared.regs = some (s', regs)) :
    ∃ u, (lifecycle dev c).step (.device ready result) t = some u ∧ u.stage = .setup s' d ∧
      u.shared.regs = regs := by
  have action : t.device dev c ready result = some { t with
      stage := .setup s' d
      shared := { t.shared with regs }
      history := t.history.setup c s.pc } := by
    simp only [Thread.device, at_setup, if_neg running, moved, Option.map_some]
  exact ⟨_, action, rfl, rfl⟩

variable (dev) in
theorem select_leads {s : Setup} {d : σ} (at_setup : t.stage = .setup s d)
    (at_pc : s.pc = .queueSelect) (ready : Bool) (result : ρ)
    (beyond : ¬t.shared.regs.queueSelect.toNat < c.numQueues.toNat) :
    ∃ u, (lifecycle dev c).Leads t u ∧ ¬u.IndexInRange c := by
  have loads : setupStep c t.exit_thread_flag s t.shared.regs =
      some ({ s with pc := .queueHigh .desc t.shared.regs.queueSelect }, t.shared.regs) := by
    simp only [setupStep, at_pc]
  have running : s.pc ≠ .returned := by simp [at_pc]
  obtain ⟨t₁, first, at₁, -⟩ := device_step dev at_setup running ready result loads
  have high : setupStep c t₁.exit_thread_flag
      { s with pc := .queueHigh .desc t.shared.regs.queueSelect } t₁.shared.regs =
        some ({ s with
          pc := .queueLow .desc t.shared.regs.queueSelect (t₁.shared.regs.queueHigh .desc) },
          t₁.shared.regs) := rfl
  obtain ⟨t₂, second, at₂, -⟩ := device_step dev at₁ (by simp) ready result high
  refine ⟨t₂, ((System.Leads.refl t).next first).next second, ?_⟩
  simpa [Thread.IndexInRange, at₂, Setup.IndexInRange, Setup.index, Indexed.limit] using beyond

end

/-- The first selector that is not in range is used as an index. -/
theorem indexes_in_range_iff {σ ρ : Type*} (dev : Device σ ρ) (c : Config) (t : Thread σ)
    (reachable : (lifecycle dev c).ReachableUnder (SelectorsInRange c) t) (ready : Bool)
    (result : ρ) :
    (SelectorsInRange c t (.device ready result : ThreadLabel σ ρ) → t.IndexInRange c) ∧
      (¬SelectorsInRange c t (.device ready result : ThreadLabel σ ρ) →
        ∃ u, (lifecycle dev c).Leads t u ∧ ¬u.IndexInRange c) := by
  have selected := lifecycle_selected reachable
  cases at_stage : t.stage with
  | setup s d =>
      simp only [SelectorsInRange, Thread.selector, Thread.IndexInRange, at_stage]
      refine ⟨(selected s d at_stage).indexInRange, fun beyond => ?_⟩
      unfold Setup.selector at beyond
      cases at_pc : s.pc <;> simp only [at_pc, Option.mem_some_iff, forall_eq', Option.not_mem_none,
        false_implies, implies_true, not_true] at beyond
      case queueSelect => exact select_leads dev at_stage at_pc ready result beyond
      all_goals
        refine ⟨t, .refl t, ?_⟩
        simpa [at_stage, Setup.IndexInRange, Setup.index, at_pc, Indexed.limit] using beyond
  | _ => simp [SelectorsInRange, Thread.selector, Thread.IndexInRange, at_stage]

/-! ## A queue that is selected, and a chip reset -/

def selectQueue : List (ThreadLabel Disk.VirtioBlk Unit) :=
  [.construct ⟨0, fun _ => 0⟩, .storeStatus 2] ++ threadSteps 1 ++ [.storeStatus 10] ++
    threadSteps 3 ++ [.guest (resetShared 0)] ++ threadSteps 4

theorem indexes_in_range_queue :
    ∃ t, (lifecycle (Disk.virtioBlkDevice 0) (virtioBlk 0 0 33)).runUnder
        (SelectorsInRange (virtioBlk 0 0 33)) selectQueue threadStart = some t ∧
      (∃ s d, t.stage = .setup s d ∧ s.pc = .queueLow .desc 0 0) ∧
      t.IndexInRange (virtioBlk 0 0 33) := by
  have run : ∃ t, (lifecycle (Disk.virtioBlkDevice 0) (virtioBlk 0 0 33)).runUnder
      (SelectorsInRange (virtioBlk 0 0 33)) selectQueue threadStart = some t ∧
      (∃ s d, t.stage = .setup s d ∧ s.pc = .queueLow .desc 0 0) ∧
      SelectorsInRange (virtioBlk 0 0 33) t
        (.device true () : ThreadLabel Disk.VirtioBlk Unit) :=
    ⟨_, rfl, ⟨_, _, rfl, rfl⟩, fun _ none => absurd none (Option.not_mem_none _)⟩
  obtain ⟨t, action, at_pc, in_range⟩ := run
  have initial : (lifecycle (Disk.virtioBlkDevice 0) (virtioBlk 0 0 33)).ReachableUnder
      (SelectorsInRange (virtioBlk 0 0 33)) threadStart := .start ⟨rfl, rfl⟩
  have indexes := indexes_in_range_iff _ _ t (initial.runUnder _ action) true ()
  exact ⟨t, action, at_pc, indexes.1 in_range⟩

def chipReset : Regs where
  magicValue := -1
  version := -1
  deviceId := -1
  deviceFeatures := -1
  deviceFeaturesSel := -1
  driverFeatures := -1
  driverFeaturesSel := -1
  queueNumMax := -1
  queueReady := -1
  interruptStatus := -1
  interruptAck := -1
  status := -1
  queueHigh _ := -1
  queueLow _ := -1
  queueSelect := -1
  swImpl := -1
  selGeneration := -1

/-- `device_features_list` is indexed with the word that a reset chip shows. -/
theorem selector_all_ones :
    ¬∀ t, (lifecycle (Disk.virtioBlkDevice 0) (virtioBlk 0 0 33)).Reachable t →
      t.IndexInRange (virtioBlk 0 0 33) := by
  intro in_range
  have run : ∃ t, (lifecycle (Disk.virtioBlkDevice 0) (virtioBlk 0 0 33)).run
      ([.construct ⟨0, fun _ => 0⟩, .guest { resetShared 0 with regs := chipReset },
        .storeStatus (-1)] ++ threadSteps 2) threadStart = some t ∧
      ∃ s d, t.stage = .setup s d ∧ s.index t.shared.regs = some (.deviceFeaturesList, -1) :=
    ⟨_, rfl, _, _, rfl, rfl⟩
  obtain ⟨t, action, s, d, at_setup, indexed⟩ := run
  have initial : (lifecycle (Disk.virtioBlkDevice 0) (virtioBlk 0 0 33)).Reachable threadStart :=
    .start ⟨rfl, rfl⟩
  have inside := in_range t (initial.run _ action)
  simp only [Thread.IndexInRange, at_setup, Setup.IndexInRange, indexed, Option.mem_some_iff,
    forall_eq'] at inside
  exact absurd inside (by decide)

end TtBhLinux.Virtio
