import TtBhLinux.Pll.Programs
import Mathlib.Algebra.Order.Field.Basic
import Mathlib.Tactic.Positivity
import Mathlib.Tactic.Linarith

/-!
# The ramp discipline

`Move t s s' w` is one allowed register write on the way from the contents `s` to the target `t`:
a field goes one step toward its target, fbdiv only once no postdiv is below its target, and a
postdiv goes down only once in addition fbdiv is at its target.
-/

namespace TtBhLinux.Pll
open Common

def toward {w : Nat} (target cur : BitVec w) : BitVec w :=
  if cur < target then cur + 1 else cur - 1

inductive Move (t : Target) (s : Copies) : Copies → Write → Prop
  | postdiv (i : Fin 4) : s.postdivs.postdiv i ≠ t.postdiv i →
      (t.postdiv i < s.postdivs.postdiv i →
        s.fbdiv.fbdiv = t.fbdiv ∧ ∀ j, t.postdiv j ≤ s.postdivs.postdiv j) →
      Move t s (s.setPostdiv i (toward (t.postdiv i) (s.postdivs.postdiv i)))
        (s.setPostdiv i (toward (t.postdiv i) (s.postdivs.postdiv i))).writeCntl5
  | fbdiv : s.fbdiv.fbdiv ≠ t.fbdiv → (∀ i, t.postdiv i ≤ s.postdivs.postdiv i) →
      Move t s (s.setFbdiv (toward t.fbdiv s.fbdiv.fbdiv))
        (s.setFbdiv (toward t.fbdiv s.fbdiv.fbdiv)).writeCntl1

def AtTarget (t : Target) (s : Copies) : Prop :=
  s.fbdiv.fbdiv = t.fbdiv ∧ ∀ i, s.postdivs.postdiv i = t.postdiv i

inductive Ramp (t : Target) : Copies → List Write → Prop
  | done {s : Copies} : AtTarget t s → Ramp t s []
  | move {s s' : Copies} {w : Write} {rest : List Write} :
      Move t s s' w → Ramp t s' rest → Ramp t s (w :: rest)

@[simp] theorem setPostdiv_postdiv (s : Copies) (i j : Fin 4) (v : U8) :
    (s.setPostdiv i v).postdivs.postdiv j = if j = i then v else s.postdivs.postdiv j := by
  simp [Copies.setPostdiv, PLLCNTL5.setPostdiv, Function.update_apply]

@[simp] theorem setPostdiv_fbdiv (s : Copies) (i : Fin 4) (v : U8) :
    (s.setPostdiv i v).fbdiv = s.fbdiv := rfl

@[simp] theorem setFbdiv_fbdiv (s : Copies) (v : U16) : (s.setFbdiv v).fbdiv.fbdiv = v := rfl

@[simp] theorem setFbdiv_postdivs (s : Copies) (v : U16) : (s.setFbdiv v).postdivs = s.postdivs := rfl

theorem toNat_toward {w : Nat} (target cur : BitVec w) (h : cur ≠ target) :
    (toward target cur).toNat = if cur < target then cur.toNat + 1 else cur.toNat - 1 := by
  have bound := target.isLt
  have bound' := cur.isLt
  have ne : cur.toNat ≠ target.toNat := fun eq => h (BitVec.eq_of_toNat_eq eq)
  have positive : 0 < w := by
    rcases Nat.eq_zero_or_pos w with rfl | h
    · omega
    · exact h
  have one : (1 : BitVec w).toNat = 1 := by simp [positive]
  unfold toward
  split <;> rename_i order <;> rw [BitVec.lt_def] at order
  · rw [BitVec.toNat_add, one, Nat.mod_eq_of_lt (by omega)]
  · rw [BitVec.toNat_sub_of_le (by rw [BitVec.le_def, one]; omega), one]

theorem toward_le {w : Nat} {target cur : BitVec w} (ne : cur ≠ target) (le : cur ≤ target) :
    toward target cur ≤ target := by
  have lt := BitVec.lt_of_le_ne le ne
  have next := toNat_toward target cur ne
  rw [if_pos lt] at next
  rw [BitVec.lt_def] at lt
  rw [BitVec.le_def]
  omega

theorem le_toward {w : Nat} {target cur : BitVec w} (ne : cur ≠ target) (le : target ≤ cur) :
    target ≤ toward target cur := by
  have next := toNat_toward target cur ne
  rw [BitVec.le_def] at le
  rw [if_neg (by rw [BitVec.lt_def]; omega)] at next
  have : cur.toNat ≠ target.toNat := fun h => ne (BitVec.eq_of_toNat_eq h)
  rw [BitVec.le_def]
  omega

/-! ## The while loops -/

def Points {w : Nat} (one_step target cur : BitVec w) : Prop :=
  cur = target ∨ (one_step = 1 ∧ cur < target) ∨ (one_step = -1 ∧ target < cur)

theorem Points.add_eq {w : Nat} {one_step target cur : BitVec w} (h : Points one_step target cur)
    (ne : cur ≠ target) : cur + one_step = toward target cur := by
  rcases h with eq | ⟨rfl, lt⟩ | ⟨rfl, lt⟩
  · exact absurd eq ne
  · rw [toward, if_pos lt]
  · rw [toward, if_neg (by simp only [BitVec.lt_def] at lt ⊢; omega), BitVec.sub_eq_add_neg]

theorem Points.toward {w : Nat} {one_step target cur : BitVec w} (h : Points one_step target cur)
    (ne : cur ≠ target) : Points one_step target (Pll.toward target cur) := by
  have next := toNat_toward target cur ne
  by_cases eq : Pll.toward target cur = target
  · exact .inl eq
  have ne' : (Pll.toward target cur).toNat ≠ target.toNat := fun h => eq (BitVec.eq_of_toNat_eq h)
  rcases h with eq' | ⟨rfl, lt⟩ | ⟨rfl, lt⟩
  · exact absurd eq' ne
  · rw [if_pos lt] at next
    simp only [BitVec.lt_def] at lt
    exact .inr (.inl ⟨rfl, by rw [BitVec.lt_def]; omega⟩)
  · rw [if_neg (by simp only [BitVec.lt_def] at lt ⊢; omega)] at next
    simp only [BitVec.lt_def] at lt
    exact .inr (.inr ⟨rfl, by rw [BitVec.lt_def]; omega⟩)

theorem points_sign {w : Nat} (target cur : BitVec w) :
    Points (if cur < target then 1 else -1) target cur := by
  by_cases eq : cur = target
  · exact .inl eq
  have ne : cur.toNat ≠ target.toNat := fun h => eq (BitVec.eq_of_toNat_eq h)
  split <;> rename_i lt <;> simp only [BitVec.lt_def] at lt
  · exact .inr (.inl ⟨rfl, lt⟩)
  · exact .inr (.inr ⟨rfl, by rw [BitVec.lt_def]; omega⟩)

theorem ofInt_oneStep_lt {w : Nat} {target cur : BitVec w} (h : cur < target) :
    BitVec.ofInt w (Clock.oneStep target cur) = 1 := by
  rw [BitVec.lt_def] at h
  rw [show Clock.oneStep target cur = 1 by unfold Clock.oneStep; omega]
  rfl

theorem ofInt_oneStep_gt {w : Nat} {target cur : BitVec w} (h : target < cur) :
    BitVec.ofInt w (Clock.oneStep target cur) = -1 := by
  rw [BitVec.lt_def] at h
  rw [show Clock.oneStep target cur = -1 by unfold Clock.oneStep; omega]
  simp [BitVec.ofInt_neg]

theorem points_oneStep {w : Nat} (target cur : BitVec w) :
    Points (.ofInt w (Clock.oneStep target cur)) target cur := by
  by_cases eq : cur = target
  · exact .inl eq
  have sign : BitVec.ofInt w (Clock.oneStep target cur) = if cur < target then 1 else -1 := by
    by_cases lt : cur < target
    · rw [if_pos lt, ofInt_oneStep_lt lt]
    · rw [if_neg lt, ofInt_oneStep_gt (BitVec.lt_of_le_ne (BitVec.not_lt.mp lt) (Ne.symm eq))]
  rw [sign]
  exact points_sign target cur

theorem stepField_ensures {t : Target} {w : Nat} {get : Copies → BitVec w}
    {set : Copies → BitVec w → Copies} {write : Copies → Write} (fuel : Nat) (enough : 2 ^ w ≤ fuel)
    (target one_step : BitVec w) (inv : Copies → Prop)
    (get_set : ∀ s v, get (set s v) = v)
    (stable : ∀ s, inv s → get s ≠ target → inv (set s (toward target (get s))))
    (move : ∀ s, inv s → get s ≠ target →
      Move t s (set s (toward target (get s))) (write (set s (toward target (get s))))) :
    Emits.Ensures (Ramp t) (fun s => inv s ∧ Points one_step target (get s))
      (stepField get set write fuel target one_step) (fun s => inv s ∧ get s = target) := by
  refine (Emits.Ensures.whileLoop (fun s =>
    (target.toNat - (get s).toNat) + ((get s).toNat - target.toNat)) fuel ?_ ?_ ?_).weaken
    (fun _ => id) ?_
  · intro s _
    have := target.isLt
    have := (get s).isLt
    omega
  · rintro s ⟨hs, points⟩ test
    have ne : get s ≠ target := by simpa using test
    have next := toNat_toward target (get s) ne
    simp only [points.add_eq ne]
    refine ⟨⟨stable s hs ne, ?_⟩, ?_⟩
    · rw [get_set]
      exact points.toward ne
    · simp only [get_set, next, BitVec.lt_def]
      have : (get s).toNat ≠ target.toNat := fun h => ne (BitVec.eq_of_toNat_eq h)
      split <;> omega
  · rintro s ⟨hs, points⟩ test rest ramp
    have ne : get s ≠ target := by simpa using test
    simp only [points.add_eq ne] at ramp ⊢
    exact .move (move s hs ne) ramp
  · rintro s ⟨⟨hs, _⟩, test⟩
    exact ⟨hs, by simpa using test⟩

/-! ## The three phases -/

section Phases
variable (t : Target)

/-- In phase 1 the fields of `rest` are still to come; those of `exact` are not above their targets.
-/
structure Raising (exact : Fin 4 → Prop) (rest : List (Fin 4)) (s : Copies) : Prop where
  nodup : rest.Nodup
  below : ∀ i ∈ rest, exact i → s.postdivs.postdiv i ≤ t.postdiv i
  raised : ∀ i, i ∉ rest → t.postdiv i ≤ s.postdivs.postdiv i
  reached : ∀ i, i ∉ rest → exact i → s.postdivs.postdiv i = t.postdiv i

structure Lowering (rest : List (Fin 4)) (s : Copies) : Prop where
  nodup : rest.Nodup
  fbdiv : s.fbdiv.fbdiv = t.fbdiv
  raised : ∀ i, t.postdiv i ≤ s.postdivs.postdiv i
  reached : ∀ i, i ∉ rest → s.postdivs.postdiv i = t.postdiv i

variable {t} {fuel : Nat}

theorem Raising.drop {exact : Fin 4 → Prop} {i : Fin 4} {rest : List (Fin 4)} {s : Copies}
    (h : Raising t exact (i :: rest) s) (le : t.postdiv i ≤ s.postdivs.postdiv i)
    (eq : exact i → s.postdivs.postdiv i = t.postdiv i) : Raising t exact rest s where
  nodup := h.nodup.of_cons
  below j hj := h.below j (List.mem_cons_of_mem i hj)
  raised j hj := by
    by_cases same : j = i
    · exact same ▸ le
    · exact h.raised j (by simp [same, hj])
  reached j hj he := by
    by_cases same : j = i
    · exact same ▸ eq (same ▸ he)
    · exact h.reached j (by simp [same, hj]) he

theorem Lowering.drop {i : Fin 4} {rest : List (Fin 4)} {s : Copies}
    (h : Lowering t (i :: rest) s) (eq : s.postdivs.postdiv i = t.postdiv i) :
    Lowering t rest s where
  nodup := h.nodup.of_cons
  fbdiv := h.fbdiv
  raised := h.raised
  reached j hj := by
    by_cases same : j = i
    · exact same ▸ eq
    · exact h.reached j (by simp [same, hj])

theorem stepPostdiv_raises (enough : 2 ^ 8 ≤ fuel) (exact : Fin 4 → Prop) (i : Fin 4)
    (rest : List (Fin 4)) (one_step : U8) :
    Emits.Ensures (Ramp t) (fun s => (Raising t exact (i :: rest) s ∧
        s.postdivs.postdiv i ≤ t.postdiv i) ∧ Points one_step (t.postdiv i) (s.postdivs.postdiv i))
      (stepPostdiv i fuel (t.postdiv i) one_step) (Raising t exact rest) := by
  refine (stepField_ensures fuel enough (t.postdiv i) one_step
    (fun s => Raising t exact (i :: rest) s ∧ s.postdivs.postdiv i ≤ t.postdiv i)
    (by simp) ?_ ?_).weaken (fun _ => id) fun s hs => ?_
  · rintro s ⟨h, le⟩ ne
    have le' := toward_le ne le
    refine ⟨⟨h.nodup, ?_, ?_, ?_⟩, by simpa using le'⟩
    · intro j hj he
      by_cases same : j = i
      · subst same
        simpa using le'
      · simpa [same] using h.below j hj he
    · intro j hj
      have same : j ≠ i := fun h => hj (h ▸ List.mem_cons_self)
      simpa [same] using h.raised j hj
    · intro j hj he
      have same : j ≠ i := fun h => hj (h ▸ List.mem_cons_self)
      simpa [same] using h.reached j hj he
  · rintro s ⟨_, le⟩ ne
    apply Move.postdiv i ne
    intro lt
    rw [BitVec.le_def] at le
    rw [BitVec.lt_def] at lt
    omega
  · exact hs.1.1.drop (by simp [hs.2]) fun _ => hs.2

theorem stepPostdiv_lowers (enough : 2 ^ 8 ≤ fuel) (i : Fin 4) (rest : List (Fin 4))
    (one_step : U8) :
    Emits.Ensures (Ramp t) (fun s => Lowering t (i :: rest) s ∧
        Points one_step (t.postdiv i) (s.postdivs.postdiv i))
      (stepPostdiv i fuel (t.postdiv i) one_step) (Lowering t rest) := by
  refine (stepField_ensures fuel enough (t.postdiv i) one_step (Lowering t (i :: rest))
    (by simp) ?_ ?_).weaken (fun _ => id) fun s hs => hs.1.drop hs.2
  · intro s h ne
    refine ⟨h.nodup, h.fbdiv, ?_, ?_⟩
    · intro j
      by_cases same : j = i
      · subst same
        simpa using le_toward ne (h.raised j)
      · simpa [same] using h.raised j
    · intro j hj
      have same : j ≠ i := fun h => hj (h ▸ List.mem_cons_self)
      simpa [same] using h.reached j hj
  · exact fun s h ne => .postdiv i ne fun _ => ⟨h.fbdiv, h.raised⟩

theorem stepFbdiv_adjusts (enough : 2 ^ 16 ≤ fuel) (one_step : U16) (inv : Copies → Prop)
    (stable : ∀ s v, inv s → inv (s.setFbdiv v))
    (raised : ∀ s, inv s → ∀ i, t.postdiv i ≤ s.postdivs.postdiv i) :
    Emits.Ensures (Ramp t) (fun s => inv s ∧ Points one_step t.fbdiv s.fbdiv.fbdiv)
      (stepFbdiv fuel t.fbdiv one_step) (fun s => inv s ∧ s.fbdiv.fbdiv = t.fbdiv) :=
  stepField_ensures fuel enough t.fbdiv one_step inv (by simp) (fun s hs _ => stable s _ hs)
    fun s hs ne => .fbdiv ne (raised s hs)

end Phases

/-! ## The two implementations -/

theorem L2CPU.ramp_ensures (t : Target) (fuel : Nat) (enough : 2 ^ 16 ≤ fuel) :
    Emits.Ensures (Ramp t) (fun _ => True) (L2CPU.ramp fuel t) (AtTarget t) := by
  have enough8 : 2 ^ 8 ≤ fuel := by omega
  have raise : Emits.Ensures (Ramp t) (fun _ => True) (Emits.forEach allFields fun i =>
      Emits.when (fun s => s.postdivs.postdiv i < t.postdiv i)
        (stepPostdiv i fuel (t.postdiv i) 1)) (Raising t (fun _ => False) []) := by
    refine (Emits.Ensures.forEach (Raising t fun _ => False) allFields fun i rest =>
      Emits.Ensures.when ?_ ?_).weaken (fun s _ => ?_) (fun _ => id)
    · refine (stepPostdiv_raises enough8 _ i rest 1).weaken ?_ (fun _ => id)
      rintro s ⟨h, lt⟩
      have lt : s.postdivs.postdiv i < t.postdiv i := by simpa using lt
      exact ⟨⟨h, BitVec.le_of_lt lt⟩, .inr (.inl ⟨rfl, lt⟩)⟩
    · intro s h not
      exact h.drop (BitVec.not_lt.mp (by simpa using not)) False.elim
    · exact ⟨by decide, fun _ _ => False.elim, fun i hi => absurd (mem_allFields i) hi,
        fun _ _ => False.elim⟩
  have adjust : Emits.Ensures (Ramp t) (Raising t (fun _ => False) [])
      (Emits.when (fun s => s.fbdiv.fbdiv != t.fbdiv) fun s =>
        stepFbdiv fuel t.fbdiv (if s.fbdiv.fbdiv < t.fbdiv then 1 else -1) s)
      (fun s => Raising t (fun _ => False) [] s ∧ s.fbdiv.fbdiv = t.fbdiv) := by
    refine Emits.Ensures.when (Emits.Ensures.reader fun s hs => ?_) ?_
    · refine (stepFbdiv_adjusts enough _ (Raising t (fun _ => False) []) ?_ ?_).weaken ?_
        (fun _ => id)
      · exact fun s v h => ⟨h.nodup, h.below, h.raised, h.reached⟩
      · exact fun s h i => h.raised i (by simp)
      · rintro _ rfl
        exact ⟨hs.1, points_sign _ _⟩
    · exact fun s h eq => ⟨h, by simpa using eq⟩
  have lower : Emits.Ensures (Ramp t)
      (fun s => Raising t (fun _ => False) [] s ∧ s.fbdiv.fbdiv = t.fbdiv)
      (Emits.forEach allFields fun i => Emits.when (fun s => t.postdiv i < s.postdivs.postdiv i)
        (stepPostdiv i fuel (t.postdiv i) (-1))) (Lowering t []) := by
    refine (Emits.Ensures.forEach (Lowering t) allFields fun i rest =>
      Emits.Ensures.when ?_ ?_).weaken (fun s h => ?_) (fun _ => id)
    · refine (stepPostdiv_lowers enough8 i rest (-1)).weaken ?_ (fun _ => id)
      rintro s ⟨h, lt⟩
      exact ⟨h, .inr (.inr ⟨rfl, by simpa using lt⟩)⟩
    · intro s h not
      exact h.drop (BitVec.le_antisymm (BitVec.not_lt.mp (by simpa using not)) (h.raised i))
    · exact ⟨by decide, h.2, fun i => h.1.raised i (by simp), fun i hi => absurd (mem_allFields i) hi⟩
  exact (raise.seq (adjust.seq lower)).weaken (fun _ => id) fun s h =>
    ⟨h.fbdiv, fun i => h.reached i (by simp)⟩

theorem Clock.step_ensures {t : Target} {P Q : Copies → Prop} {fuel : Nat} {target : U8} {i : Fin 4}
    (h : ∀ one_step, Emits.Ensures (Ramp t)
      (fun s => P s ∧ Points one_step target (s.postdivs.postdiv i))
      (stepPostdiv i fuel target one_step) Q) :
    Emits.Ensures (Ramp t) P (Clock.PLLCNTL5.step fuel target i) Q :=
  fun s hs => h _ s ⟨hs, points_oneStep _ _⟩

theorem Clock.stepFbdiv_ensures {t : Target} {P Q : Copies → Prop} {fuel : Nat} {target : U16}
    (h : ∀ one_step, Emits.Ensures (Ramp t) (fun s => P s ∧ Points one_step target s.fbdiv.fbdiv)
      (stepFbdiv fuel target one_step) Q) :
    Emits.Ensures (Ramp t) P (Clock.PLLCNTL1.stepFbdiv fuel target) Q :=
  fun s hs => h _ s ⟨hs, points_oneStep _ _⟩

theorem Clock.ramp_ensures (t : Target) (fuel : Nat) (enough : 2 ^ 16 ≤ fuel) :
    Emits.Ensures (Ramp t) (fun _ => True) (Clock.ramp fuel t) (AtTarget t) := by
  have enough8 : 2 ^ 8 ≤ fuel := by omega
  intro s₀ _
  let increasing := allFields.filter fun i => s₀.postdivs.postdiv i < t.postdiv i
  let decreasing := allFields.filter fun i => t.postdiv i < s₀.postdivs.postdiv i
  have mem_increasing (i : Fin 4) : i ∈ increasing ↔ s₀.postdivs.postdiv i < t.postdiv i := by
    simp [increasing, mem_allFields]
  have mem_decreasing (i : Fin 4) : i ∈ decreasing ↔ t.postdiv i < s₀.postdivs.postdiv i := by
    simp [decreasing, mem_allFields]
  have nodup : allFields.Nodup := by decide
  -- After phase 1 the fields outside `decreasing` are at their targets.
  let kept (i : Fin 4) : Prop := i ∉ decreasing
  have raise : Emits.Ensures (Ramp t) (fun s => s = s₀) (Emits.forEach increasing fun i =>
      Clock.PLLCNTL5.step fuel (t.postdiv i) i) (Raising t kept []) := by
    refine (Emits.Ensures.forEach (fun rest s => Raising t kept rest s ∧ ∀ i ∈ rest, kept i)
      increasing fun i rest => Clock.step_ensures fun one_step => ?_).weaken ?_ (fun _ h => h.1)
    · intro s hs
      have le := hs.1.1.below i (by simp) (hs.1.2 i (by simp))
      obtain ⟨s', ws, result, raised, extend⟩ :=
        stepPostdiv_raises enough8 kept i rest one_step s ⟨⟨hs.1.1, le⟩, hs.2⟩
      exact ⟨s', ws, result, ⟨raised, fun j hj => hs.1.2 j (List.mem_cons_of_mem i hj)⟩, extend⟩
    · rintro s rfl
      refine ⟨⟨nodup.filter _, ?_, ?_, ?_⟩, ?_⟩
      · exact fun i hi _ => BitVec.le_of_lt ((mem_increasing i).mp hi)
      · exact fun i hi => BitVec.not_lt.mp (mt (mem_increasing i).mpr hi)
      · exact fun i hi hk => BitVec.le_antisymm (BitVec.not_lt.mp (mt (mem_decreasing i).mpr hk))
          (BitVec.not_lt.mp (mt (mem_increasing i).mpr hi))
      · intro i hi hk
        have lt := (mem_increasing i).mp hi
        have gt := (mem_decreasing i).mp hk
        simp only [BitVec.lt_def] at lt gt
        omega
  have adjust : Emits.Ensures (Ramp t) (Raising t kept []) (Clock.PLLCNTL1.stepFbdiv fuel t.fbdiv)
      (fun s => Raising t kept [] s ∧ s.fbdiv.fbdiv = t.fbdiv) := by
    refine Clock.stepFbdiv_ensures fun one_step =>
      stepFbdiv_adjusts enough one_step (Raising t kept []) ?_ ?_
    · exact fun s v h => ⟨h.nodup, h.below, h.raised, h.reached⟩
    · exact fun s h i => h.raised i (by simp)
  have lower : Emits.Ensures (Ramp t) (fun s => Raising t kept [] s ∧ s.fbdiv.fbdiv = t.fbdiv)
      (Emits.forEach decreasing fun i => Clock.PLLCNTL5.step fuel (t.postdiv i) i)
      (Lowering t []) := by
    refine (Emits.Ensures.forEach (Lowering t) decreasing fun i rest =>
      Clock.step_ensures fun one_step => stepPostdiv_lowers enough8 i rest one_step).weaken
      (fun s h => ?_) (fun _ => id)
    · exact ⟨nodup.filter _, h.2, fun i => h.1.raised i (by simp),
        fun i hi => h.1.reached i (by simp) hi⟩
  have final (s : Copies) (h : Lowering t [] s) : AtTarget t s :=
    ⟨h.fbdiv, fun i => h.reached i (by simp)⟩
  exact (raise.seq (adjust.seq lower)).weaken (fun _ => id) final s₀ rfl

end TtBhLinux.Pll
