import Mathlib.Algebra.Order.Group.Nat
import TtBhLinux.Common.Recorded

/-!
# Bounded service

If every counted step brings the next service closer and no other step puts it off, then `n` counted
steps make for `n / round` services, up to the goal.
-/

namespace TtBhLinux.Common.System
variable {σ ℓ : Type*}

def countIf (works : ℓ → Bool) (label : ℓ) (_ : σ) (n : Nat) : Nat :=
  if works label then n + 1 else n

/-- `Left s m` says that at most `m` counted steps are left to the next service. -/
structure Service (S : System σ ℓ) (guard : σ → ℓ → Prop) (works : ℓ → Bool) (inv : σ → Prop)
    (served : σ → Nat) (goal round : Nat) (Left : σ → Nat → Prop) : Prop where
  inv_step : ∀ s t label, inv s → guard s label → S.step label s = some t → inv t
  mono : ∀ s t label, inv s → guard s label → S.step label s = some t → served s ≤ served t
  begin : ∀ s, inv s → served s < goal → ∃ m, Left s m ∧ 0 < m ∧ m ≤ round
  step : ∀ s t label m, inv s → served s < goal → Left s m → guard s label →
    S.step label s = some t → served s < served t ∨
      ∃ m', Left t m' ∧ 0 < m' ∧ m' + (if works label then 1 else 0) ≤ m

section
variable {S : System σ ℓ} {guard : σ → ℓ → Prop} {works : ℓ → Bool} {inv : σ → Prop}
  {served : σ → Nat} {goal round : Nat} {Left : σ → Nat → Prop} {s₀ : σ}

def Paid (served : σ → Nat) (goal round : Nat) (Left : σ → Nat → Prop) (s₀ s : σ) (n : Nat) : Prop :=
  served s₀ ≤ served s ∧
    (goal ≤ served s ∨
      ∃ m, Left s m ∧ 0 < m ∧ n + m ≤ (served s - served s₀ + 1) * round)

theorem Service.paid_step (service : Service S guard works inv served goal round Left) {s t : σ}
    {label : ℓ} {n : Nat} (holds : inv s) (paid : Paid served goal round Left s₀ s n)
    (ok : guard s label) (action : S.step label s = some t) :
    Paid served goal round Left s₀ t (countIf works label s n) := by
  obtain ⟨since, paid⟩ := paid
  have mono := service.mono s t label holds ok action
  refine ⟨since.trans mono, ?_⟩
  rcases paid with reached | ⟨m, left, positive, bound⟩
  · exact .inl (reached.trans mono)
  by_cases reached : goal ≤ served t
  · exact .inl reached
  have more : served s < goal := mono.trans_lt (not_le.mp reached)
  have counted : countIf works label s n = n + if works label then 1 else 0 := by
    unfold countIf
    split <;> rfl
  refine .inr ?_
  rcases service.step s t label m holds more left ok action with next | ⟨m', left', positive', falls⟩
  · obtain ⟨m', left', positive', short⟩ :=
      service.begin t (service.inv_step s t label holds ok action) (not_le.mp reached)
    refine ⟨m', left', positive', ?_⟩
    have one : (if works label then 1 else 0) ≤ m := by split <;> omega
    have further : (served s - served s₀ + 1) * round + round ≤
        (served t - served s₀ + 1) * round := by
      rw [← Nat.succ_mul]
      exact Nat.mul_le_mul_right _ (by omega)
    omega
  · refine ⟨m', left', positive', ?_⟩
    have further : (served s - served s₀ + 1) * round ≤ (served t - served s₀ + 1) * round :=
      Nat.mul_le_mul_right _ (by omega)
    omega

theorem Service.at_least (service : Service S guard works inv served goal round Left)
    (initial : inv s₀) {t : σ} {n : Nat}
    (run : (S.startingAt s₀).ReachableWith 0 (countIf works) guard (t, n)) :
    min goal (served s₀ + n / round) ≤ served t := by
  have holds : ∀ s, (S.startingAt s₀).ReachableUnder guard s → inv s := fun s reachable =>
    reachable.invariant (by rintro s rfl; exact initial) service.inv_step
  have paid : Paid served goal round Left s₀ t n := by
    apply ReachableWith.invariant (Paid served goal round Left s₀) run
    · rintro s rfl
      refine ⟨le_rfl, ?_⟩
      by_cases reached : goal ≤ served s
      · exact .inl reached
      · obtain ⟨m, left, positive, short⟩ := service.begin s initial (not_le.mp reached)
        exact .inr ⟨m, left, positive, by simpa using short⟩
    · exact fun s t label n reachable paid ok action =>
        service.paid_step (holds s reachable) paid ok action
  obtain ⟨since, reached | ⟨m, -, positive, bound⟩⟩ := paid
  · exact (min_le_left _ _).trans reached
  · have few : n / round < served t - served s₀ + 1 := by
      apply Nat.div_lt_of_lt_mul
      rw [Nat.mul_comm]
      omega
    exact (min_le_right _ _).trans (by omega)

end
end TtBhLinux.Common.System
