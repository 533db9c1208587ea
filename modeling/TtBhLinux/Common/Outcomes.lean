import Mathlib.Tactic.TypeStar

/-!
# Outcomes of two runs

Two runs have the same outcome if both fail in the same way, or both succeed with results that are
related.
-/

namespace TtBhLinux.Common
variable {ε ε' α β γ δ : Type*}

inductive SameOutcome (R : α → β → Prop) : Except ε α → Except ε β → Prop
  | error (e : ε) : SameOutcome R (.error e) (.error e)
  | ok {a : α} {b : β} : R a b → SameOutcome R (.ok a) (.ok b)

theorem SameOutcome.refl {R : α → α → Prop} (h : ∀ a, R a a) (x : Except ε α) :
    SameOutcome R x x := by
  cases x with
  | error e => exact .error e
  | ok a => exact .ok (h a)

theorem SameOutcome.map {R : α → β → Prop} {S : γ → δ → Prop} {x : Except ε α} {y : Except ε β}
    {f : α → γ} {g : β → δ} (same : SameOutcome R x y) (h : ∀ a b, R a b → S (f a) (g b)) :
    SameOutcome S (x.map f) (y.map g) := by
  cases same with
  | error e => exact .error e
  | ok related => exact .ok (h _ _ related)

end TtBhLinux.Common
