import TtBhLinux.Pll.Ramp

/-!
# A ramp run alone

One field at a time by one step, from the initial contents to the target, and no output above both
its initial and its final frequency.
-/

namespace TtBhLinux.Pll
open Common

@[ext] structure Regs where
  cntl5 : U32
  cntl1 : U32
  deriving DecidableEq

def Regs.copies (r : Regs) : Copies := .read r.cntl5 r.cntl1

def Regs.write (r : Regs) (w : Write) : Regs :=
  if w.addr = pll4Base + pllCntl5 then { r with cntl5 := w.value }
  else if w.addr = pll4Base + pllCntl1 then { r with cntl1 := w.value }
  else r

def Regs.contents : Regs → List Write → List Regs
  | r, [] => [r]
  | r, w :: ws => r :: (r.write w).contents ws

def Regs.after (r : Regs) (ws : List Write) : Regs := ws.foldl Regs.write r

@[simp] theorem write_cntl5 (r : Regs) (s : Copies) :
    (r.write s.writeCntl5) = { r with cntl5 := s.postdivs.raw } := by
  simp [Regs.write, Copies.writeCntl5]

@[simp] theorem write_cntl1 (r : Regs) (s : Copies) :
    (r.write s.writeCntl1) = { r with cntl1 := s.fbdiv.raw } := by
  simp [Regs.write, Copies.writeCntl1, pll4Base, pllCntl1, pllCntl5]

theorem Move.write {t : Target} {r : Regs} {s' : Copies} {w : Write} (h : Move t r.copies s' w) :
    (r.write w).copies = s' := by
  cases h <;> simp [Regs.copies, Copies.read, Copies.setPostdiv, Copies.setFbdiv]

inductive Adjacent (a b : Copies) : Prop
  | postdiv (i : Fin 4) : b.fbdiv = a.fbdiv →
      (∀ j, j ≠ i → b.postdivs.postdiv j = a.postdivs.postdiv j) →
      ((b.postdivs.postdiv i).toNat = (a.postdivs.postdiv i).toNat + 1 ∨
        (a.postdivs.postdiv i).toNat = (b.postdivs.postdiv i).toNat + 1) → Adjacent a b
  | fbdiv : b.postdivs = a.postdivs → b.fbdiv.refdiv = a.fbdiv.refdiv →
      b.fbdiv.postdiv = a.fbdiv.postdiv →
      (b.fbdiv.fbdiv.toNat = a.fbdiv.fbdiv.toNat + 1 ∨
        a.fbdiv.fbdiv.toNat = b.fbdiv.fbdiv.toNat + 1) → Adjacent a b

theorem toward_adjacent {w : Nat} {target cur : BitVec w} (ne : cur ≠ target) :
    (toward target cur).toNat = cur.toNat + 1 ∨ cur.toNat = (toward target cur).toNat + 1 := by
  have next := toNat_toward target cur ne
  have : cur.toNat ≠ target.toNat := fun h => ne (BitVec.eq_of_toNat_eq h)
  split at next <;> rename_i lt <;> rw [BitVec.lt_def] at lt <;> omega

theorem Move.adjacent {t : Target} {s s' : Copies} {w : Write} (h : Move t s s' w) :
    Adjacent s s' := by
  cases h with
  | postdiv i ne _ =>
      exact .postdiv i rfl (fun j hj => by simp [hj]) (by simpa using toward_adjacent ne)
  | fbdiv ne _ => exact .fbdiv rfl rfl rfl (toward_adjacent ne)

/-! ## Frequencies -/

structure Divisor (K : Type) [Field K] [LinearOrder K] where
  factor : U8 → K
  positive : ∀ p, 0 < factor p
  monotone : ∀ p q, p ≤ q → factor p ≤ factor q

section Ratio
variable {K : Type} [Field K] [LinearOrder K]

def Copies.ratio (D : Divisor K) (s : Copies) (i : Fin 4) : K :=
  (s.fbdiv.fbdiv.toNat : K) / D.factor (s.postdivs.postdiv i)

def Target.ratio (D : Divisor K) (t : Target) (i : Fin 4) : K :=
  (t.fbdiv.toNat : K) / D.factor (t.postdiv i)

/-- While fbdiv has not moved no postdiv is below its initial value, afterwards none below its
target. -/
structure Within (t : Target) (s₀ s : Copies) : Prop where
  fbdiv : s.fbdiv.fbdiv ≤ s₀.fbdiv.fbdiv ∨ s.fbdiv.fbdiv ≤ t.fbdiv
  phase : (s.fbdiv.fbdiv = s₀.fbdiv.fbdiv ∧
      ∀ i, s₀.postdivs.postdiv i ≤ s.postdivs.postdiv i) ∨
    ((∀ i, t.postdiv i ≤ s.postdivs.postdiv i) ∧
      (s.fbdiv.fbdiv = t.fbdiv ∨ ∀ i, s₀.postdivs.postdiv i ≤ s.postdivs.postdiv i))

theorem Within.start (t : Target) (s : Copies) : Within t s s :=
  ⟨.inl (by simp), .inl ⟨rfl, fun _ => by simp⟩⟩

variable [IsStrictOrderedRing K]

theorem ratio_le (D : Divisor K) {n m : U16} {p q : U8} (num : n ≤ m) (den : q ≤ p) :
    (n.toNat : K) / D.factor p ≤ (m.toNat : K) / D.factor q :=
  div_le_div₀ (Nat.cast_nonneg _) (Nat.cast_le.mpr num) (D.positive q) (D.monotone q p den)

theorem Within.ratio_le {t : Target} {s₀ s : Copies} (h : Within t s₀ s) (D : Divisor K)
    (i : Fin 4) : s.ratio D i ≤ max (s₀.ratio D i) (t.ratio D i) := by
  rcases h.phase with ⟨eq, above⟩ | ⟨raised, eq | above⟩
  · exact le_max_of_le_left (Pll.ratio_le D (by simp [eq]) (above i))
  · exact le_max_of_le_right (Pll.ratio_le D (by simp [eq]) (raised i))
  · rcases h.fbdiv with le | le
    · exact le_max_of_le_left (Pll.ratio_le D le (above i))
    · exact le_max_of_le_right (Pll.ratio_le D le (raised i))

end Ratio

theorem toward_le_of_le {w : Nat} {target cur bound : BitVec w} (ne : cur ≠ target)
    (h : cur ≤ bound ∨ cur ≤ target) : toward target cur ≤ bound ∨ toward target cur ≤ target := by
  have next := toNat_toward target cur ne
  have : cur.toNat ≠ target.toNat := fun h => ne (BitVec.eq_of_toNat_eq h)
  simp only [BitVec.le_def] at h ⊢
  split at next <;> rename_i lt <;> rw [BitVec.lt_def] at lt <;> omega

theorem Move.within {t : Target} {s₀ s s' : Copies} {w : Write} (h : Move t s s' w)
    (hs : Within t s₀ s) : Within t s₀ s' := by
  cases h with
  | fbdiv ne raised =>
      refine ⟨toward_le_of_le ne hs.fbdiv, .inr ⟨raised, ?_⟩⟩
      rcases hs.phase with ⟨_, above⟩ | ⟨_, eq | above⟩
      · exact .inr above
      · exact absurd eq ne
      · exact .inr above
  | postdiv i ne settled =>
      refine ⟨hs.fbdiv, ?_⟩
      by_cases lower : t.postdiv i < s.postdivs.postdiv i
      · obtain ⟨eq, raised⟩ := settled lower
        refine .inr ⟨fun j => ?_, .inl eq⟩
        by_cases same : j = i
        · subst same
          simpa using le_toward ne (BitVec.le_of_lt lower)
        · simpa [same] using raised j
      · -- A raise keeps every lower bound of the field.
        have up : ∀ {b : U8}, b ≤ s.postdivs.postdiv i →
            b ≤ toward (t.postdiv i) (s.postdivs.postdiv i) := by
          intro b le
          have lt : s.postdivs.postdiv i < t.postdiv i :=
            BitVec.lt_of_le_ne (BitVec.not_lt.mp lower) ne
          have next := toNat_toward _ _ ne
          rw [if_pos lt] at next
          simp only [BitVec.le_def] at le ⊢
          omega
        have keep : ∀ {b : Fin 4 → U8}, (∀ j, b j ≤ s.postdivs.postdiv j) → ∀ j,
            b j ≤ (s.setPostdiv i (toward (t.postdiv i) (s.postdivs.postdiv i))).postdivs.postdiv j := by
          intro b le j
          by_cases same : j = i
          · subst same
            simpa using up (le j)
          · simpa [same] using le j
        rcases hs.phase with ⟨eq, above⟩ | ⟨raised, eq | above⟩
        · exact .inl ⟨eq, keep above⟩
        · exact .inr ⟨keep raised, .inl eq⟩
        · exact .inr ⟨keep raised, .inr (keep above)⟩

/-! ## Whole ramps -/

structure SafeRamp (t : Target) (before : Regs) (ws : List Write) : Prop where
  one_field : (before.contents ws).IsChain fun a b => Adjacent a.copies b.copies
  untouched : ∀ r ∈ before.contents ws,
    r.copies.fbdiv.refdiv = before.copies.fbdiv.refdiv ∧
      r.copies.fbdiv.postdiv = before.copies.fbdiv.postdiv
  final : AtTarget t (before.after ws).copies
  bounded : ∀ (K : Type) [Field K] [LinearOrder K] [IsStrictOrderedRing K] (D : Divisor K)
    (i : Fin 4), ∀ r ∈ before.contents ws,
      r.copies.ratio D i ≤ max (before.copies.ratio D i) ((before.after ws).copies.ratio D i)

theorem Ramp.one_field {t : Target} {r : Regs} {ws : List Write} (h : Ramp t r.copies ws) :
    (r.contents ws).IsChain fun a b => Adjacent a.copies b.copies := by
  induction ws generalizing r with
  | nil => exact .singleton _
  | cons w rest ih =>
      cases h with
      | move move later =>
          have eq := move.write
          have chain := ih (r := r.write w) (eq ▸ later)
          have step : Adjacent r.copies (r.write w).copies := eq ▸ move.adjacent
          cases rest with
          | nil => exact .cons_cons step chain
          | cons w' rest => exact .cons_cons step chain

theorem Ramp.contents {t : Target} (inv : Copies → Prop)
    (preserved : ∀ s s' w, inv s → Move t s s' w → inv s') {r : Regs} {ws : List Write}
    (h : Ramp t r.copies ws) (initial : inv r.copies) : ∀ r' ∈ r.contents ws, inv r'.copies := by
  induction ws generalizing r with
  | nil =>
      intro r' member
      rw [List.mem_singleton.mp member]
      exact initial
  | cons w rest ih =>
      cases h with
      | move move later =>
          have eq := move.write
          intro r' member
          rcases List.mem_cons.mp member with rfl | member
          · exact initial
          · exact ih (eq ▸ later) (eq ▸ preserved _ _ _ initial move) r' member

theorem Ramp.final {t : Target} {r : Regs} {ws : List Write} (h : Ramp t r.copies ws) :
    AtTarget t (r.after ws).copies := by
  induction ws generalizing r with
  | nil =>
      cases h with
      | done at_target => exact at_target
  | cons w rest ih =>
      cases h with
      | move move later => exact ih (r := r.write w) (move.write ▸ later)

theorem Ramp.safe {t : Target} {r : Regs} {ws : List Write} (h : Ramp t r.copies ws) :
    SafeRamp t r ws where
  one_field := h.one_field
  untouched := h.contents (fun s => s.fbdiv.refdiv = r.copies.fbdiv.refdiv ∧
      s.fbdiv.postdiv = r.copies.fbdiv.postdiv) (fun s s' w same move => by
        cases move <;> exact same) ⟨rfl, rfl⟩
  final := h.final
  bounded K _ _ _ D i r' member := by
    have within := h.contents (Within t r.copies) (fun _ _ _ hs move => move.within hs)
      (.start t r.copies) r' member
    have goal : (r.after ws).copies.ratio D i = t.ratio D i := by
      simp only [Copies.ratio, Target.ratio, h.final.1, h.final.2 i]
    rw [goal]
    exact within.ratio_le D i

/-! ## Both implementations -/

theorem safe_of_ensures {t : Target} {prog : Nat → Emits Copies Write}
    (total : ∀ fuel, 2 ^ 16 ≤ fuel →
      Emits.Ensures (Ramp t) (fun _ => True) (prog fuel) (AtTarget t))
    (extends' : ∀ n m, n ≤ m → Emits.Extends (prog n) (prog m)) (r : Regs) :
    ∃ ws, (∀ fuel, 2 ^ 16 ≤ fuel → (prog fuel r.copies).map Prod.snd = some ws) ∧
      SafeRamp t r ws := by
  obtain ⟨s, ws, result, final, extend⟩ := total (2 ^ 16) le_rfl r.copies trivial
  refine ⟨ws, fun fuel enough => ?_, (by simpa using extend [] (.done final) : Ramp t _ ws).safe⟩
  simp [extends' _ _ enough _ _ result]

theorem L2CPU.ramp_extends (t : Target) (n m : Nat) (le : n ≤ m) :
    Emits.Extends (L2CPU.ramp n t) (L2CPU.ramp m t) := by
  refine .seq (.forEach (fun i => .when (.whileLoop le)) _) (.seq (.when ?_)
    (.forEach (fun i => .when (.whileLoop le)) _))
  exact fun s => Emits.Extends.whileLoop le s

theorem Clock.ramp_extends (t : Target) (n m : Nat) (le : n ≤ m) :
    Emits.Extends (Clock.ramp n t) (Clock.ramp m t) := by
  have step (target : U8) (i : Fin 4) :
      Emits.Extends (Clock.PLLCNTL5.step n target i) (Clock.PLLCNTL5.step m target i) :=
    fun s => Emits.Extends.whileLoop le s
  have stepFbdiv (target : U16) :
      Emits.Extends (Clock.PLLCNTL1.stepFbdiv n target) (Clock.PLLCNTL1.stepFbdiv m target) :=
    fun s => Emits.Extends.whileLoop le s
  intro s
  exact Emits.Extends.seq (.forEach (fun i => step _ i) _)
    (.seq (stepFbdiv _) (.forEach (fun i => step _ i) _)) s

theorem ramp_alone_safe (before : Regs) :
    (∀ t : Target, ∃ ws,
      (∀ fuel, 2 ^ 16 ≤ fuel → Clock.setTarget fuel t before.cntl5 before.cntl1 = some ws) ∧
        SafeRamp t before ws) ∧
    ∃ ws, (∀ fuel, 2 ^ 16 ≤ fuel → L2CPU.setFrequency fuel before.cntl5 before.cntl1 = some ws) ∧
      SafeRamp L2CPU.target before ws :=
  ⟨fun t => safe_of_ensures (fun _ => Clock.ramp_ensures t _) (Clock.ramp_extends t) before,
    safe_of_ensures (fun _ => L2CPU.ramp_ensures L2CPU.target _) (L2CPU.ramp_extends L2CPU.target)
      before⟩

end TtBhLinux.Pll
