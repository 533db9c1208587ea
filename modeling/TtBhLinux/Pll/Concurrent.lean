import TtBhLinux.Common.System
import TtBhLinux.Pll.Safety
import Mathlib.Data.Rat.Cast.Order
import Mathlib.Tactic.NormNum

/-!
# Concurrent ramps

The threads construct their `L2CPU` objects without a lock. A run of `set_frequency` reads the two
registers once; from then on it writes whole registers from its private copies.
-/

namespace TtBhLinux.Pll
open Common

def rampFuel : Nat := 2 ^ 16

inductive Thread
  | start
  | half (cntl5 : U32)
  | ramping (copy : Regs) (rest : List Write)

def Thread.step (regs : Regs) : Thread → Option (Regs × Thread)
  | .start => some (regs, .half regs.cntl5)
  | .half cntl5 => (L2CPU.setFrequency rampFuel cntl5 regs.cntl1).map fun ws =>
      (regs, .ramping ⟨cntl5, regs.cntl1⟩ ws)
  | .ramping copy (w :: rest) => some (regs.write w, .ramping (copy.write w) rest)
  | .ramping _ [] => none

def Thread.Finished : Thread → Prop
  | .ramping _ [] => True
  | _ => False

structure Pool (n : Nat) where
  regs : Regs
  threads : Fin (n + 1) → Thread

/-- `n + 1` runs of `set_frequency`; a label says which of them makes its next register access. -/
def pool (n : Nat) (before : Regs) : System (Pool n) (Fin (n + 1)) where
  init s := s.regs = before ∧ ∀ i, s.threads i = .start
  step i s := ((s.threads i).step s.regs).map fun r => ⟨r.1, Function.update s.threads i r.2⟩

def Regs.get (r : Regs) (addr : U64) : U32 :=
  if addr = pll4Base + pllCntl5 then r.cntl5 else r.cntl1

structure SafeState (n : Nat) (before : Regs) (guard : Pool n → Fin (n + 1) → Prop)
    (s : Pool n) : Prop where
  one_field : ∀ i s', guard s i → (pool n before).step i s = some s' →
    s'.regs = s.regs ∨ Adjacent s.regs.copies s'.regs.copies
  bounded : ∀ (K : Type) [Field K] [LinearOrder K] [IsStrictOrderedRing K] (D : Divisor K)
    (i : Fin 4),
    s.regs.copies.ratio D i ≤ max (before.copies.ratio D i) (L2CPU.target.ratio D i)
  final : (∀ i, (s.threads i).Finished) → AtTarget L2CPU.target s.regs.copies

/-- The register still holds the private copy, or already holds the value that is written. -/
def Thread.Current (regs : Regs) : Thread → Prop
  | .ramping copy (w :: _) => regs.get w.addr = copy.get w.addr ∨ regs.write w = regs
  | _ => True

/-! ## What a stale copy still tells -/

structure BehindPostdivs (t : Target) (seen now : PLLCNTL5) : Prop where
  raised : ∀ i, t.postdiv i ≤ seen.postdiv i → t.postdiv i ≤ now.postdiv i
  reached : ∀ i, seen.postdiv i = t.postdiv i → now.postdiv i = t.postdiv i

structure Behind (t : Target) (seen now : Copies) : Prop where
  postdivs : BehindPostdivs t seen.postdivs now.postdivs
  fbdiv : seen.fbdiv.fbdiv = t.fbdiv → now.fbdiv.fbdiv = t.fbdiv

theorem BehindPostdivs.refl (t : Target) (p : PLLCNTL5) : BehindPostdivs t p p :=
  ⟨fun _ => id, fun _ => id⟩

theorem BehindPostdivs.trans {t : Target} {p q r : PLLCNTL5} (h : BehindPostdivs t p q)
    (h' : BehindPostdivs t q r) : BehindPostdivs t p r :=
  ⟨fun i le => h'.raised i (h.raised i le), fun i eq => h'.reached i (h.reached i eq)⟩

theorem Behind.trans {t : Target} {s s' s'' : Copies} (h : Behind t s s') (h' : Behind t s' s'') :
    Behind t s s'' :=
  ⟨h.postdivs.trans h'.postdivs, fun eq => h'.fbdiv (h.fbdiv eq)⟩

theorem Move.behind {t : Target} {s s' : Copies} {w : Write} (h : Move t s s' w) :
    Behind t s s' := by
  cases h with
  | fbdiv ne _ => exact ⟨.refl t _, fun eq => absurd eq ne⟩
  | postdiv i ne _ =>
      refine ⟨⟨fun j le => ?_, fun j eq => ?_⟩, id⟩
      · by_cases same : j = i
        · subst same
          simpa using le_toward ne le
        · simpa [same] using le
      · by_cases same : j = i
        · exact absurd (same ▸ eq) ne
        · simpa [same] using eq

theorem Behind.write {t : Target} {copy regs : Regs} (h : Behind t copy.copies regs.copies)
    (w : Write) : Behind t (copy.write w).copies (regs.write w).copies := by
  unfold Regs.write
  split
  · exact ⟨.refl t _, h.fbdiv⟩
  · split
    · exact ⟨h.postdivs, id⟩
    · exact h

theorem Move.on_regs {t : Target} {r : Regs} {s' : Copies} {w : Write}
    (h : Move t r.copies s' w) : Move t r.copies (r.write w).copies w := by
  rw [h.write]
  exact h

theorem Move.transfer {t : Target} {copy regs : Regs} {s' : Copies} {w : Write}
    (h : Move t copy.copies s' w) (behind : Behind t copy.copies regs.copies)
    (current : regs.get w.addr = copy.get w.addr) :
    Move t regs.copies (regs.write w).copies w := by
  cases h with
  | postdiv i ne settled =>
      have eq : regs.copies.postdivs = copy.copies.postdivs := congrArg PLLCNTL5.ofRaw current
      rw [← eq] at ne settled
      have move : Move t regs.copies _ _ := .postdiv i ne fun lt =>
        ⟨behind.fbdiv (settled lt).1, (settled lt).2⟩
      have same : (regs.copies.setPostdiv i
          (toward (t.postdiv i) (regs.copies.postdivs.postdiv i))).writeCntl5 =
          (copy.copies.setPostdiv i
            (toward (t.postdiv i) (copy.copies.postdivs.postdiv i))).writeCntl5 := by
        simp only [Copies.writeCntl5, Copies.setPostdiv, eq]
      rw [← same]
      exact move.on_regs
  | fbdiv ne raised =>
      have eq : regs.copies.fbdiv = copy.copies.fbdiv := by
        simpa [Regs.get, Copies.writeCntl1, pll4Base, pllCntl1, pllCntl5, Regs.copies, Copies.read]
          using congrArg PLLCNTL1.ofRaw current
      rw [← eq] at ne
      have move : Move t regs.copies _ _ := .fbdiv ne fun i => behind.postdivs.raised i (raised i)
      have same : (regs.copies.setFbdiv (toward t.fbdiv regs.copies.fbdiv.fbdiv)).writeCntl1 =
          (copy.copies.setFbdiv (toward t.fbdiv copy.copies.fbdiv.fbdiv)).writeCntl1 := by
        simp only [Copies.writeCntl1, Copies.setFbdiv, eq]
      rw [← same]
      exact move.on_regs

/-! ## The invariant -/

def Thread.Inv (t : Target) (regs : Regs) : Thread → Prop
  | .start => True
  | .half cntl5 => BehindPostdivs t (.ofRaw cntl5) regs.copies.postdivs
  | .ramping copy rest => Ramp t copy.copies rest ∧ Behind t copy.copies regs.copies

structure PoolInv {n : Nat} (t : Target) (before : Regs) (s : Pool n) : Prop where
  within : Within t before.copies s.regs.copies
  threads : ∀ i, (s.threads i).Inv t s.regs

theorem Thread.Inv.later {t : Target} {regs regs' : Regs} {thread : Thread}
    (h : thread.Inv t regs) (behind : Behind t regs.copies regs'.copies) : thread.Inv t regs' := by
  cases thread with
  | start => trivial
  | half cntl5 => exact BehindPostdivs.trans h behind.postdivs
  | ramping copy rest => exact ⟨h.1, h.2.trans behind⟩

theorem setFrequency_ramp {cntl5 cntl1 : U32} {ws : List Write}
    (h : L2CPU.setFrequency rampFuel cntl5 cntl1 = some ws) :
    Ramp L2CPU.target (Copies.read cntl5 cntl1) ws := by
  obtain ⟨s, ws', result, final, extend⟩ :=
    L2CPU.ramp_ensures L2CPU.target rampFuel le_rfl (.read cntl5 cntl1) trivial
  simp only [L2CPU.setFrequency, result, Option.map_some, Option.some.injEq] at h
  subst h
  simpa using extend [] (.done final)

theorem thread_step {regs regs' : Regs} {thread thread' : Thread}
    (inv : thread.Inv L2CPU.target regs) (current : thread.Current regs)
    (action : thread.step regs = some (regs', thread')) :
    thread'.Inv L2CPU.target regs' ∧
      (regs' = regs ∨ ∃ w, Move L2CPU.target regs.copies regs'.copies w) := by
  cases thread with
  | start =>
      cases action
      exact ⟨.refl _ _, .inl rfl⟩
  | half cntl5 =>
      obtain ⟨ws, result, eq⟩ := Option.map_eq_some_iff.mp action
      cases eq
      exact ⟨⟨setFrequency_ramp result, inv, id⟩, .inl rfl⟩
  | ramping copy rest =>
      cases rest with
      | nil => cases action
      | cons w rest =>
          cases action
          obtain ⟨ramp, behind⟩ := inv
          cases ramp with
          | move move later =>
              refine ⟨⟨move.write ▸ later, behind.write w⟩, ?_⟩
              rcases current with current | same
              · exact .inr ⟨w, move.transfer behind current⟩
              · exact .inl same

def pool_current {n : Nat} (s : Pool n) (i : Fin (n + 1)) : Prop := (s.threads i).Current s.regs

theorem pool_step {n : Nat} {before : Regs} {s s' : Pool n} {i : Fin (n + 1)}
    (inv : PoolInv L2CPU.target before s) (current : pool_current s i)
    (action : (pool n before).step i s = some s') :
    PoolInv L2CPU.target before s' ∧
      (s'.regs = s.regs ∨ ∃ w, Move L2CPU.target s.regs.copies s'.regs.copies w) := by
  obtain ⟨⟨regs', thread'⟩, result, eq⟩ := Option.map_eq_some_iff.mp action
  cases eq
  obtain ⟨own, change⟩ := thread_step (inv.threads i) current result
  have behind : Behind L2CPU.target s.regs.copies regs'.copies := by
    rcases change with rfl | ⟨w, move⟩
    · exact ⟨.refl _ _, id⟩
    · exact move.behind
  refine ⟨⟨?_, fun j => ?_⟩, change⟩
  · rcases change with rfl | ⟨w, move⟩
    · exact inv.within
    · exact move.within inv.within
  · by_cases same : j = i
    · subst same
      simpa using own
    · simpa [same] using (inv.threads j).later behind

/-- Any number of runs, as long as no write puts a stale copy back. -/
theorem ramps_safe_when_current {n : Nat} {before : Regs} {s : Pool n}
    (reachable : (pool n before).ReachableUnder pool_current s) :
    SafeState n before pool_current s := by
  have inv : PoolInv L2CPU.target before s := by
    refine reachable.invariant ?_ fun s s' i inv current action => (pool_step inv current action).1
    rintro s ⟨rfl, start⟩
    exact ⟨.start _ _, fun i => by rw [start i]; trivial⟩
  refine ⟨fun i s' current action => ?_, fun K _ _ _ D i => inv.within.ratio_le D i, ?_⟩
  · rcases (pool_step inv current action).2 with same | ⟨w, move⟩
    · exact .inl same
    · exact .inr move.adjacent
  · intro finished
    have own := inv.threads 0
    have done := finished 0
    cases thread : s.threads 0 with
    | start => simp [thread, Thread.Finished] at done
    | half cntl5 => simp [thread, Thread.Finished] at done
    | ramping copy rest =>
        cases rest with
        | cons w rest => simp [thread, Thread.Finished] at done
        | nil =>
            rw [thread] at own
            obtain ⟨ramp, behind⟩ := own
            cases ramp with
            | done at_target =>
                exact ⟨behind.fbdiv at_target.1, fun i => behind.postdivs.reached i (at_target.2 i)⟩

/-! ## Two runs in turns, and a stale copy that undoes a finished ramp -/

def staleStart : Regs := ⟨0x01010102, 0x008f0101⟩

def staleWrites : List Write :=
  [⟨pll4Base + pllCntl1, 0x008e0101⟩, ⟨pll4Base + pllCntl1, 0x008d0101⟩,
    ⟨pll4Base + pllCntl1, 0x008c0101⟩, ⟨pll4Base + pllCntl5, 0x01010101⟩]

theorem staleStart_ramp :
    L2CPU.setFrequency rampFuel staleStart.cntl5 staleStart.cntl1 = some staleWrites := by
  decide +kernel

instance (regs : Regs) : ∀ thread : Thread, Decidable (thread.Current regs)
  | .ramping _ (_ :: _) => inferInstanceAs (Decidable (_ ∨ _))
  | .ramping _ [] | .start | .half _ => .isTrue trivial

instance {n : Nat} (s : Pool n) (i : Fin (n + 1)) : Decidable (pool_current s i) :=
  inferInstanceAs (Decidable ((s.threads i).Current s.regs))

theorem staleStart_read {threads : Fin 2 → Thread} {i : Fin 2} (start : threads i = .start)
    (reachable : (pool 1 staleStart).ReachableUnder pool_current ⟨staleStart, threads⟩) :
    (pool 1 staleStart).ReachableUnder pool_current
      ⟨staleStart, Function.update threads i (.ramping staleStart staleWrites)⟩ := by
  have first : (pool 1 staleStart).step i ⟨staleStart, threads⟩ =
      some ⟨staleStart, Function.update threads i (.half staleStart.cntl5)⟩ := by
    simp [pool, start, Thread.step]
  have second : (pool 1 staleStart).step i
      ⟨staleStart, Function.update threads i (.half staleStart.cntl5)⟩ =
      some ⟨staleStart, Function.update threads i (.ramping staleStart staleWrites)⟩ := by
    simp [pool, Thread.step, staleStart_ramp]
  have reading : pool_current ⟨staleStart, threads⟩ i := by
    simp [pool_current, start, Thread.Current]
  exact (reachable.next reading first).next (by simp [pool_current, Thread.Current]) second

theorem ramps_safe_in_turns : ∃ s, (pool 1 staleStart).ReachableUnder pool_current s ∧
    (∀ i, (s.threads i).Finished) ∧ s.regs = ⟨0x01010101, 0x008c0101⟩ ∧
    SafeState 1 staleStart pool_current s := by
  have initial : (pool 1 staleStart).ReachableUnder pool_current ⟨staleStart, fun _ => .start⟩ :=
    .start ⟨rfl, fun _ => rfl⟩
  have read := staleStart_read (i := 1) rfl (staleStart_read (i := 0) rfl initial)
  have turns : ∃ s, (pool 1 staleStart).runUnder pool_current [0, 1, 0, 1, 0, 1, 0, 1]
      ⟨staleStart, Function.update (Function.update (fun _ => .start) 0
        (.ramping staleStart staleWrites)) 1 (.ramping staleStart staleWrites)⟩ = some s ∧
      (s.threads 0).Finished ∧ (s.threads 1).Finished ∧ s.regs = ⟨0x01010101, 0x008c0101⟩ :=
    ⟨_, rfl, trivial, trivial, rfl⟩
  obtain ⟨s, action, first, second, regs⟩ := turns
  have reachable := read.runUnder _ action
  exact ⟨s, reachable, Fin.forall_fin_two.mpr ⟨first, second⟩, regs,
    ramps_safe_when_current reachable⟩

theorem staleStart_run : ∃ s, (pool 1 staleStart).Reachable s ∧
    s.regs = ⟨0x01010101, 0x008c0101⟩ ∧
    ∃ rest, s.threads 0 = .ramping staleStart (⟨pll4Base + pllCntl1, 0x008e0101⟩ :: rest) := by
  let first : Pool 1 := ⟨staleStart, fun _ => .start⟩
  have initial : (pool 1 staleStart).Reachable first := .start ⟨rfl, fun _ => rfl⟩
  have run : ∃ s, (pool 1 staleStart).run [0, 0, 1, 1, 1, 1, 1, 1] first = some s ∧
      s.regs = ⟨0x01010101, 0x008c0101⟩ ∧
      ∃ rest, s.threads 0 = .ramping staleStart (⟨pll4Base + pllCntl1, 0x008e0101⟩ :: rest) := by
    simp [System.run, pool, first, Thread.step, staleStart_ramp, staleWrites, Regs.write, pll4Base,
      pllCntl1, pllCntl5]
  obtain ⟨s, action, regs, thread⟩ := run
  exact ⟨s, initial.run _ action, regs, thread⟩

def successor : Divisor ℚ where
  factor p := p.toNat + 1
  positive p := by positivity
  monotone p q le := by
    have : (p.toNat : ℚ) ≤ q.toNat := Nat.cast_le.mpr (by simpa [BitVec.le_def] using le)
    linarith

/-- That write takes output 0 from 140 / 2 to 142 / 2, above both 143 / 3 and 140 / 2. -/
theorem concurrent_ramps_unsafe :
    ¬∀ s, (pool 1 staleStart).Reachable s → SafeState 1 staleStart (fun _ _ => True) s := by
  intro safe
  obtain ⟨s, reachable, regs, rest, thread⟩ := staleStart_run
  let w : Write := ⟨pll4Base + pllCntl1, 0x008e0101⟩
  let s' : Pool 1 :=
    ⟨s.regs.write w, Function.update s.threads 0 (.ramping (staleStart.write w) rest)⟩
  have action : (pool 1 staleStart).step 0 s = some s' := by
    simp only [pool, thread, Thread.step, Option.map_some]
    rfl
  have bounded := (safe s' (reachable.next trivial action)).bounded ℚ successor 0
  have now : s'.regs.copies.ratio successor 0 = 142 / 2 := by
    simp only [s', regs]
    decide +kernel
  have initial : staleStart.copies.ratio successor 0 = 143 / 3 := by decide +kernel
  have final : L2CPU.target.ratio successor 0 = 140 / 2 := by decide +kernel
  rw [now, initial, final] at bounded
  norm_num at bounded

end TtBhLinux.Pll
