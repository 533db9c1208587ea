import TtBhLinux.Pll.Concurrent

/-!
# Ramps that find the target

A run of `set_frequency` that reads a clock at its target has nothing to write, so any number of
them leave it where it is.
-/

namespace TtBhLinux.Pll
open Common

theorem Ramp.settled {t : Target} {s : Copies} {ws : List Write} (ramp : Ramp t s ws)
    (at_target : AtTarget t s) : ws = [] := by
  cases ramp with
  | done _ => rfl
  | move move _ =>
      cases move with
      | postdiv i ne _ => exact absurd (at_target.2 i) ne
      | fbdiv ne _ => exact absurd at_target.1 ne

def Thread.Idle (before : Regs) : Thread → Prop
  | .start => True
  | .half cntl5 => cntl5 = before.cntl5
  | .ramping _ rest => rest = []

structure Settled {n : Nat} (before : Regs) (s : Pool n) : Prop where
  target : AtTarget L2CPU.target before.copies
  regs : s.regs = before
  idle : ∀ i, (s.threads i).Idle before

theorem Settled.initial {n : Nat} {before : Regs} (target : AtTarget L2CPU.target before.copies) :
    ∀ s, (pool n before).init s → Settled before s := by
  rintro s ⟨regs, start⟩
  refine ⟨target, regs, fun i => ?_⟩
  rw [start i]
  trivial

theorem Thread.Idle.step {before regs : Regs} {thread thread' : Thread}
    (target : AtTarget L2CPU.target before.copies) (idle : thread.Idle before)
    (action : thread.step before = some (regs, thread')) :
    regs = before ∧ thread'.Idle before := by
  cases thread with
  | start =>
      cases action
      exact ⟨rfl, rfl⟩
  | half cntl5 =>
      obtain ⟨ws, result, eq⟩ := Option.map_eq_some_iff.mp action
      cases eq
      cases idle
      exact ⟨rfl, (setFrequency_ramp result).settled target⟩
  | ramping copy rest =>
      cases idle
      cases action

theorem Settled.step {n : Nat} {before : Regs} (s s' : Pool n) (i : Fin (n + 1))
    (settled : Settled before s) (_ : True) (action : (pool n before).step i s = some s') :
    Settled before s' := by
  obtain ⟨⟨regs, thread⟩, result, eq⟩ := Option.map_eq_some_iff.mp action
  cases eq
  rw [settled.regs] at result
  obtain ⟨same, idle⟩ := (settled.idle i).step settled.target result
  refine ⟨settled.target, same, fun j => ?_⟩
  by_cases own : j = i
  · subst own
    simpa using idle
  · simpa [own] using settled.idle j

end TtBhLinux.Pll
