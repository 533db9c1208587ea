import TtBhLinux.Pll.Safety

/-!
# The two implementations agree

`set_frequency` tests each field when its turn comes, on the copy that the earlier steps have
changed; `set_l2cpu_pll` sorts the fields before the first step.
-/

namespace TtBhLinux.Pll
open Common

theorem stepField_idle {w : Nat} {get : Copies → BitVec w} {set : Copies → BitVec w → Copies}
    {write : Copies → Write} (fuel : Nat) {target one_step : BitVec w} {s : Copies}
    (reached : get s = target) :
    stepField get set write fuel target one_step s = some (s, []) := by
  cases fuel <;> simp [stepField, Emits.whileLoop, reached]

theorem stepPostdiv_result {fuel : Nat} {i : Fin 4} {target one_step : U8} {s : Copies}
    {r : Copies × List Write} (result : stepPostdiv i fuel target one_step s = some r) :
    r.1 = s.setPostdiv i target := by
  have kept := Emits.whileLoop_result (P := fun s' => ∃ v, s' = s.setPostdiv i v)
    (by
      rintro s' ⟨v, rfl⟩ _
      exact ⟨_, by simp [Copies.setPostdiv, PLLCNTL5.setPostdiv]; rfl⟩) fuel
    ⟨s.postdivs.postdiv i, by simp [Copies.setPostdiv, PLLCNTL5.setPostdiv]⟩ result
  obtain ⟨⟨v, eq⟩, reached⟩ := kept
  have value : v = target := by simpa [eq] using reached
  rw [eq, value]

theorem stepFbdiv_result {fuel : Nat} {target one_step : U16} {s : Copies}
    {r : Copies × List Write} (result : stepFbdiv fuel target one_step s = some r) :
    r.1.postdivs = s.postdivs :=
  (Emits.whileLoop_result (P := fun s' => s'.postdivs = s.postdivs) (fun _ h _ => h) fuel rfl
    result).1

section Phases
variable (t : Target) (fuel : Nat) (s₀ : Copies)

/-- The fields of `rest`, and those above their targets, compare with their targets as in `s₀`. -/
structure ToRaise (rest : List (Fin 4)) (s : Copies) : Prop where
  nodup : rest.Nodup
  below : ∀ i ∈ rest, s.postdivs.postdiv i < t.postdiv i ↔ s₀.postdivs.postdiv i < t.postdiv i
  above : ∀ i, t.postdiv i < s.postdivs.postdiv i ↔ t.postdiv i < s₀.postdivs.postdiv i

structure ToLower (rest : List (Fin 4)) (s : Copies) : Prop where
  nodup : rest.Nodup
  above : ∀ i ∈ rest, t.postdiv i < s.postdivs.postdiv i ↔ t.postdiv i < s₀.postdivs.postdiv i

theorem raise_agree : Emits.Agree (ToRaise t s₀ allFields)
    (Emits.forEach allFields fun i => Emits.when (fun s => s.postdivs.postdiv i < t.postdiv i)
      (stepPostdiv i fuel (t.postdiv i) 1))
    (Emits.forEach (allFields.filter fun i => s₀.postdivs.postdiv i < t.postdiv i) fun i =>
      Clock.PLLCNTL5.step fuel (t.postdiv i) i)
    (ToRaise t s₀ []) := by
  rw [Emits.forEach_filter]
  apply Emits.Agree.forEach
  intro i rest s h
  have fresh : i ∉ rest := (List.nodup_cons.mp h.nodup).1
  have test := h.below i List.mem_cons_self
  by_cases lt : s.postdivs.postdiv i < t.postdiv i
  · have sign := ofInt_oneStep_lt lt
    simp only [Emits.when, test.mp lt, lt, decide_true, if_true, Clock.PLLCNTL5.step, sign]
    refine ⟨trivial, fun r result => ?_⟩
    rw [stepPostdiv_result result]
    refine ⟨h.nodup.of_cons, fun j hj => ?_, fun j => ?_⟩
    · have other : j ≠ i := fun same => fresh (same ▸ hj)
      simpa [other] using h.below j (List.mem_cons_of_mem i hj)
    · by_cases same : j = i
      · subst same
        have not := mt (h.above j).mpr (fun gt => BitVec.lt_asymm lt gt)
        simpa using not
      · simpa [same] using h.above j
  · simp only [Emits.when, lt, mt test.mpr lt, decide_false, Bool.false_eq_true, if_false]
    refine ⟨trivial, ?_⟩
    rintro _ ⟨⟩
    exact ⟨h.nodup.of_cons, fun j hj => h.below j (List.mem_cons_of_mem i hj), h.above⟩

theorem adjust_agree : Emits.Agree (ToRaise t s₀ [])
    (Emits.when (fun s => s.fbdiv.fbdiv != t.fbdiv) fun s =>
      stepFbdiv fuel t.fbdiv (if s.fbdiv.fbdiv < t.fbdiv then 1 else -1) s)
    (Clock.PLLCNTL1.stepFbdiv fuel t.fbdiv) (ToLower t s₀ allFields) := by
  intro s h
  constructor
  · by_cases eq : s.fbdiv.fbdiv = t.fbdiv
    · have idle := @stepField_idle 16 (·.fbdiv.fbdiv) Copies.setFbdiv Copies.writeCntl1 fuel _
        (.ofInt 16 (Clock.oneStep t.fbdiv s.fbdiv.fbdiv)) s eq
      simp only [Emits.when, eq, Clock.PLLCNTL1.stepFbdiv, stepFbdiv] at idle ⊢
      simpa using idle.symm
    · by_cases lt : s.fbdiv.fbdiv < t.fbdiv
      · simp [Emits.when, eq, Clock.PLLCNTL1.stepFbdiv, ofInt_oneStep_lt lt, lt]
      · have gt := BitVec.lt_of_le_ne (BitVec.not_lt.mp lt) (Ne.symm eq)
        simp [Emits.when, eq, Clock.PLLCNTL1.stepFbdiv, ofInt_oneStep_gt gt, lt]
  · intro r result
    have same := stepFbdiv_result result
    refine ⟨by decide, fun i _ => ?_⟩
    rw [same]
    exact h.above i

theorem lower_agree : Emits.Agree (ToLower t s₀ allFields)
    (Emits.forEach allFields fun i => Emits.when (fun s => t.postdiv i < s.postdivs.postdiv i)
      (stepPostdiv i fuel (t.postdiv i) (-1)))
    (Emits.forEach (allFields.filter fun i => t.postdiv i < s₀.postdivs.postdiv i) fun i =>
      Clock.PLLCNTL5.step fuel (t.postdiv i) i)
    (ToLower t s₀ []) := by
  rw [Emits.forEach_filter]
  apply Emits.Agree.forEach
  intro i rest s h
  have fresh : i ∉ rest := (List.nodup_cons.mp h.nodup).1
  have test := h.above i List.mem_cons_self
  by_cases gt : t.postdiv i < s.postdivs.postdiv i
  · have sign := ofInt_oneStep_gt gt
    simp only [Emits.when, test.mp gt, gt, decide_true, if_true, Clock.PLLCNTL5.step, sign]
    refine ⟨trivial, fun r result => ?_⟩
    rw [stepPostdiv_result result]
    refine ⟨h.nodup.of_cons, fun j hj => ?_⟩
    have other : j ≠ i := fun same => fresh (same ▸ hj)
    simpa [other] using h.above j (List.mem_cons_of_mem i hj)
  · simp only [Emits.when, gt, mt test.mpr gt, decide_false, Bool.false_eq_true, if_false]
    refine ⟨trivial, ?_⟩
    rintro _ ⟨⟩
    exact ⟨h.nodup.of_cons, fun j hj => h.above j (List.mem_cons_of_mem i hj)⟩

end Phases

theorem ramp_eq (t : Target) (fuel : Nat) (s : Copies) :
    L2CPU.ramp fuel t s = Clock.ramp fuel t s :=
  ((raise_agree t fuel s).seq ((adjust_agree t fuel s).seq (lower_agree t fuel s)) s
    ⟨by decide, fun _ _ => Iff.rfl, fun _ => Iff.rfl⟩).1

theorem implementations_agree (before : Regs) : ∃ ws, ∀ fuel, 2 ^ 16 ≤ fuel →
    L2CPU.setFrequency fuel before.cntl5 before.cntl1 = some ws ∧
      Clock.setL2cpuPll fuel 1750 before.cntl5 before.cntl1 = .ok (some ws) := by
  obtain ⟨s, ws, result, -⟩ :=
    L2CPU.ramp_ensures L2CPU.target (2 ^ 16) le_rfl (.read before.cntl5 before.cntl1) trivial
  refine ⟨ws, fun fuel enough => ?_⟩
  have longer := L2CPU.ramp_extends L2CPU.target _ _ enough _ _ result
  have first : L2CPU.setFrequency fuel before.cntl5 before.cntl1 = some ws := by
    simp [L2CPU.setFrequency, longer]
  have second : Clock.setTarget fuel L2CPU.target before.cntl5 before.cntl1 = some ws := by
    rw [Clock.setTarget, ← ramp_eq]
    exact first
  have solution : Clock.solutions.lookup 1750 = some L2CPU.target := rfl
  simp only [Clock.setL2cpuPll, solution]
  exact ⟨first, congrArg Except.ok second⟩

end TtBhLinux.Pll
