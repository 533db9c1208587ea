import TtBhLinux.Common.System

/-!
# Recorded runs

A record beside the state of a system notes what each step does. It constrains no run, and proofs
about it may use what is known of the reachable states.
-/

namespace TtBhLinux.Common.System
variable {σ ℓ γ : Type*}

def recorded (S : System σ ℓ) (empty : γ) (note : ℓ → σ → γ → γ) : System (σ × γ) ℓ where
  init s := S.init s.1 ∧ s.2 = empty
  step label s := (S.step label s.1).map fun t => (t, note label s.1 s.2)

variable {S : System σ ℓ} {empty : γ} {note : ℓ → σ → γ → γ} {guard : σ → ℓ → Prop}

abbrev ReachableWith (S : System σ ℓ) (empty : γ) (note : ℓ → σ → γ → γ) (guard : σ → ℓ → Prop) :
    σ × γ → Prop :=
  (S.recorded empty note).ReachableUnder fun s => guard s.1

theorem ReachableWith.state {s : σ × γ} (reachable : S.ReachableWith empty note guard s) :
    S.ReachableUnder guard s.1 := by
  apply reachable.invariant
  · exact fun s initial => .start initial.1
  · intro s t label ih ok action
    obtain ⟨t', moved, rfl⟩ := Option.map_eq_some_iff.mp action
    exact .next ih ok moved

theorem ReachableUnder.recorded {s : σ} (reachable : S.ReachableUnder guard s) (empty : γ)
    (note : ℓ → σ → γ → γ) :
    ∃ record, S.ReachableWith empty note guard (s, record) := by
  induction reachable with
  | start initial => exact ⟨empty, .start ⟨initial, rfl⟩⟩
  | @next s t label _ ok action ih =>
      obtain ⟨record, reachable⟩ := ih
      have moved : (S.recorded empty note).step label (s, record) =
          some (t, note label s record) := by
        show Option.map _ _ = _
        rw [action, Option.map_some]
      exact ⟨note label s record, .next reachable ok moved⟩

theorem ReachableWith.invariant (inv : σ → γ → Prop) {s : σ × γ}
    (reachable : S.ReachableWith empty note guard s) (initial : ∀ s, S.init s → inv s empty)
    (preserved : ∀ s t label record, S.ReachableUnder guard s → inv s record → guard s label →
      S.step label s = some t → inv t (note label s record)) : inv s.1 s.2 := by
  induction reachable with
  | start start =>
      obtain ⟨starts, eq⟩ := start
      rw [eq]
      exact initial _ starts
  | next reachable ok action ih =>
      obtain ⟨t, moved, rfl⟩ := Option.map_eq_some_iff.mp action
      exact preserved _ t _ _ (ReachableWith.state reachable) ih ok moved

end TtBhLinux.Common.System
