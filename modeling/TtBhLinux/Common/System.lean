import Mathlib.Data.List.Basic
import Mathlib.Data.Option.Basic

/-!
# Transition systems

A set of initial states and a partial step function: the label says which party moves and what it
chooses. Invariants are proved over `ReachableUnder guard`, the states reached by steps that all
satisfy a condition on the state before the step.
-/

namespace TtBhLinux.Common

structure System (σ ℓ : Type*) where
  init : σ → Prop
  step : ℓ → σ → Option σ

namespace System
variable {σ ℓ : Type*} (S : System σ ℓ)

inductive ReachableUnder (guard : σ → ℓ → Prop) : σ → Prop
  | start {s : σ} : S.init s → ReachableUnder guard s
  | next {s t : σ} {label : ℓ} : ReachableUnder guard s → guard s label → S.step label s = some t →
      ReachableUnder guard t

abbrev Reachable : σ → Prop := S.ReachableUnder fun _ _ => True

def run : List ℓ → σ → Option σ
  | [], s => some s
  | label :: rest, s => (S.step label s).bind (run rest)

def runUnder (guard : σ → ℓ → Prop) [∀ s label, Decidable (guard s label)] :
    List ℓ → σ → Option σ
  | [], s => some s
  | label :: rest, s =>
      if guard s label then (S.step label s).bind (runUnder guard rest) else none

variable {S}

theorem ReachableUnder.invariant {guard : σ → ℓ → Prop} {inv : σ → Prop} {s : σ}
    (reachable : S.ReachableUnder guard s) (initial : ∀ s, S.init s → inv s)
    (preserved : ∀ s t label, inv s → guard s label → S.step label s = some t → inv t) : inv s := by
  induction reachable with
  | start h => exact initial _ h
  | next _ ok action ih => exact preserved _ _ _ ih ok action

theorem ReachableUnder.mono {guard weaker : σ → ℓ → Prop} {s : σ}
    (reachable : S.ReachableUnder guard s) (h : ∀ s label, guard s label → weaker s label) :
    S.ReachableUnder weaker s :=
  reachable.invariant (fun _ => .start) fun _ _ _ ih ok action => .next ih (h _ _ ok) action

theorem ReachableUnder.reachable {guard : σ → ℓ → Prop} {s : σ}
    (reachable : S.ReachableUnder guard s) : S.Reachable s :=
  reachable.mono fun _ _ _ => trivial

theorem Reachable.run {s t : σ} (reachable : S.Reachable s) (labels : List ℓ)
    (action : S.run labels s = some t) : S.Reachable t := by
  induction labels generalizing s with
  | nil =>
      cases action
      exact reachable
  | cons label rest ih =>
      obtain ⟨u, first, others⟩ := Option.bind_eq_some_iff.mp action
      exact ih (.next reachable trivial first) others

theorem ReachableUnder.runUnder {guard : σ → ℓ → Prop} [∀ s label, Decidable (guard s label)]
    {s t : σ} (reachable : S.ReachableUnder guard s) (labels : List ℓ)
    (action : S.runUnder guard labels s = some t) : S.ReachableUnder guard t := by
  induction labels generalizing s with
  | nil =>
      cases action
      exact reachable
  | cons label rest ih =>
      obtain ⟨ok, action⟩ := Option.ite_none_right_eq_some.mp action
      obtain ⟨u, first, others⟩ := Option.bind_eq_some_iff.mp action
      exact ih (.next reachable ok first) others

theorem run_append (before after : List ℓ) (s : σ) :
    S.run (before ++ after) s = (S.run before s).bind (S.run after) := by
  induction before generalizing s with
  | nil => rfl
  | cons label rest ih =>
      simp only [List.cons_append, System.run]
      cases S.step label s with
      | none => rfl
      | some t => exact ih t

variable (S) in
def Leads (s t : σ) : Prop := ∃ labels, S.run labels s = some t

theorem Leads.refl (s : σ) : S.Leads s s := ⟨[], rfl⟩

theorem Leads.trans {s t u : σ} (first : S.Leads s t) (second : S.Leads t u) : S.Leads s u := by
  obtain ⟨before, reach⟩ := first
  obtain ⟨after, go_on⟩ := second
  refine ⟨before ++ after, ?_⟩
  rw [run_append, reach]
  exact go_on

theorem Leads.next {s t u : σ} {label : ℓ} (leads : S.Leads s t)
    (action : S.step label t = some u) : S.Leads s u :=
  leads.trans ⟨[label], by simp [System.run, action]⟩

theorem Leads.cases {s t : σ} (leads : S.Leads s t) :
    s = t ∨ ∃ label u, S.step label s = some u ∧ S.Leads u t := by
  obtain ⟨labels, action⟩ := leads
  cases labels with
  | nil => exact .inl (Option.some.inj action)
  | cons label rest =>
      obtain ⟨u, first, others⟩ := Option.bind_eq_some_iff.mp action
      exact .inr ⟨label, u, first, rest, others⟩

theorem Reachable.leads {s t : σ} (reachable : S.Reachable s) (leads : S.Leads s t) :
    S.Reachable t := by
  obtain ⟨labels, action⟩ := leads
  exact reachable.run labels action

def startingAt (S : System σ ℓ) (s₀ : σ) : System σ ℓ := { S with init := (· = s₀) }

/-! A system that another one shows, step by step. -/

section
variable {τ : Type*} {T : System τ ℓ} {view : σ → τ}
  (same : ∀ label s, (S.step label s).map view = T.step label (view s))
include same

theorem run_view (labels : List ℓ) (s : σ) : (S.run labels s).map view = T.run labels (view s) := by
  induction labels generalizing s with
  | nil => rfl
  | cons label rest ih =>
      simp only [System.run, ← same label s]
      cases S.step label s with
      | none => rfl
      | some t => exact ih t

theorem reachable_view {s : σ} (reachable : S.Reachable s)
    (initial : ∀ s, S.init s → T.init (view s)) : T.Reachable (view s) := by
  apply reachable.invariant
  · exact fun s first => .start (initial s first)
  · intro s t label before _ action
    have moved := same label s
    rw [action] at moved
    exact .next before trivial moved.symm

end

end System
end TtBhLinux.Common
