import Mathlib.Data.List.Basic
import Mathlib.Data.Option.Basic

/-!
# Programs that emit a sequence of outputs

A program on a state `σ` returns the final state and the outputs it emitted, in order; `none` means
that a loop ran out of fuel. `Ensures R P prog Q` is total correctness from `P` to `Q`, where in
addition the emitted outputs may be put in front of any list that `R` relates to the final state.
-/

namespace TtBhLinux.Common

abbrev Emits (σ ω : Type*) := σ → Option (σ × List ω)

namespace Emits
variable {σ ω ι : Type*}

def seq (first second : Emits σ ω) : Emits σ ω := fun s => do
  let (t, os) ← first s
  let (u, os') ← second t
  some (u, os ++ os')

def forEach (xs : List ι) (body : ι → Emits σ ω) : Emits σ ω :=
  match xs with
  | [] => fun s => some (s, [])
  | x :: rest => seq (body x) (forEach rest body)

def when (cond : σ → Bool) (body : Emits σ ω) : Emits σ ω := fun s =>
  if cond s then body s else some (s, [])

def whileLoop (cond : σ → Bool) (body : σ → σ × ω) : Nat → Emits σ ω
  | 0 => fun s => if cond s then none else some (s, [])
  | fuel + 1 => fun s =>
      if cond s then (whileLoop cond body fuel (body s).1).map fun r => (r.1, (body s).2 :: r.2)
      else some (s, [])

def Ensures (R : σ → List ω → Prop) (P : σ → Prop) (prog : Emits σ ω) (Q : σ → Prop) : Prop :=
  ∀ s, P s → ∃ t os, prog s = some (t, os) ∧ Q t ∧ ∀ rest, R t rest → R s (os ++ rest)

variable {R : σ → List ω → Prop} {P Q : σ → Prop} {prog : Emits σ ω}

theorem Ensures.weaken {P' Q' : σ → Prop} (h : Ensures R P prog Q) (pre : ∀ s, P' s → P s)
    (post : ∀ s, Q s → Q' s) : Ensures R P' prog Q' := by
  intro s hs
  obtain ⟨t, os, result, final, extend⟩ := h s (pre s hs)
  exact ⟨t, os, result, post t final, extend⟩

theorem Ensures.seq {M : σ → Prop} {first second : Emits σ ω} (h₁ : Ensures R P first M)
    (h₂ : Ensures R M second Q) : Ensures R P (Emits.seq first second) Q := by
  intro s hs
  obtain ⟨t, os, result, middle, extend⟩ := h₁ s hs
  obtain ⟨u, os', result', final, extend'⟩ := h₂ t middle
  refine ⟨u, os ++ os', by simp [Emits.seq, result, result'], final, fun rest hr => ?_⟩
  rw [List.append_assoc]
  exact extend _ (extend' rest hr)

theorem Ensures.reader {prog : σ → Emits σ ω}
    (h : ∀ s, P s → Ensures R (fun s' => s' = s) (prog s) Q) : Ensures R P (fun s => prog s s) Q :=
  fun s hs => h s hs s rfl

theorem Ensures.forEach {body : ι → Emits σ ω} (inv : List ι → σ → Prop) (xs : List ι)
    (h : ∀ x rest, Ensures R (inv (x :: rest)) (body x) (inv rest)) :
    Ensures R (inv xs) (Emits.forEach xs body) (inv []) := by
  induction xs with
  | nil => exact fun s hs => ⟨s, [], rfl, hs, fun _ => id⟩
  | cons x rest ih => exact (h x rest).seq ih

theorem Ensures.when {cond : σ → Bool} (taken : Ensures R (fun s => P s ∧ cond s = true) prog Q)
    (skipped : ∀ s, P s → cond s = false → Q s) : Ensures R P (Emits.when cond prog) Q := by
  intro s hs
  cases test : cond s with
  | true =>
      obtain ⟨t, os, result, final, extend⟩ := taken s ⟨hs, test⟩
      exact ⟨t, os, by simp [Emits.when, test, result], final, extend⟩
  | false => exact ⟨s, [], by simp [Emits.when, test], skipped s hs test, fun _ => id⟩

theorem Ensures.whileLoop {cond : σ → Bool} {body : σ → σ × ω} (variant : σ → Nat) (fuel : Nat)
    (enough : ∀ s, P s → variant s ≤ fuel)
    (progress : ∀ s, P s → cond s = true → P (body s).1 ∧ variant (body s).1 < variant s)
    (emit : ∀ s, P s → cond s = true → ∀ rest, R (body s).1 rest → R s ((body s).2 :: rest)) :
    Ensures R P (Emits.whileLoop cond body fuel) (fun s => P s ∧ cond s = false) := by
  have general : ∀ fuel s, P s → variant s ≤ fuel → ∃ t os,
      Emits.whileLoop cond body fuel s = some (t, os) ∧ (P t ∧ cond t = false) ∧
        ∀ rest, R t rest → R s (os ++ rest) := by
    intro fuel
    induction fuel with
    | zero =>
        intro s hs bound
        have test : cond s = false := by
          by_contra h
          have := (progress s hs (by simpa using h)).2
          omega
        exact ⟨s, [], by simp [Emits.whileLoop, test], ⟨hs, test⟩, fun _ => id⟩
    | succ fuel ih =>
        intro s hs bound
        cases test : cond s with
        | false => exact ⟨s, [], by simp [Emits.whileLoop, test], ⟨hs, test⟩, fun _ => id⟩
        | true =>
            obtain ⟨next, decreases⟩ := progress s hs test
            obtain ⟨t, os, result, final, extend⟩ := ih (body s).1 next (by omega)
            refine ⟨t, (body s).2 :: os, by simp [Emits.whileLoop, test, result], final, ?_⟩
            intro rest hr
            exact emit s hs test _ (extend rest hr)
  exact fun s hs => general fuel s hs (enough s hs)

/-! ## Two programs that do the same -/

/-- From every state in `P` the two programs do the same, and end in `Q` where they end. -/
def Agree (P : σ → Prop) (first second : Emits σ ω) (Q : σ → Prop) : Prop :=
  ∀ s, P s → first s = second s ∧ ∀ r, second s = some r → Q r.1

theorem Agree.seq {M : σ → Prop} {a a' b b' : Emits σ ω} (h₁ : Agree P a a' M)
    (h₂ : Agree M b b' Q) : Agree P (Emits.seq a b) (Emits.seq a' b') Q := by
  intro s hs
  obtain ⟨same, middle⟩ := h₁ s hs
  cases result : a' s with
  | none => simp [Emits.seq, same, result]
  | some r =>
      obtain ⟨same', final⟩ := h₂ r.1 (middle r result)
      refine ⟨by simp [Emits.seq, same, result, same'], fun r' h => ?_⟩
      obtain ⟨r'', later, eq⟩ : ∃ r'', b' r.1 = some r'' ∧ (r''.1, r.2 ++ r''.2) = r' := by
        simpa [Emits.seq, result, Option.bind_eq_some_iff] using h
      exact eq ▸ final r'' later

theorem Agree.forEach {body body' : ι → Emits σ ω} (inv : List ι → σ → Prop) (xs : List ι)
    (h : ∀ x rest, Agree (inv (x :: rest)) (body x) (body' x) (inv rest)) :
    Agree (inv xs) (Emits.forEach xs body) (Emits.forEach xs body') (inv []) := by
  induction xs with
  | nil => exact fun s hs => ⟨rfl, by rintro _ ⟨⟩; exact hs⟩
  | cons x rest ih => exact (h x rest).seq ih

theorem when_true (body : Emits σ ω) : Emits.when (fun _ => true) body = body := rfl

theorem when_false_seq (skipped prog : Emits σ ω) :
    Emits.seq (Emits.when (fun _ => false) skipped) prog = prog := by
  funext s
  cases result : prog s <;> simp [Emits.seq, Emits.when, result]

theorem forEach_filter (test : ι → Bool) (body : ι → Emits σ ω) (xs : List ι) :
    Emits.forEach (xs.filter test) body =
      Emits.forEach xs fun x => Emits.when (fun _ => test x) (body x) := by
  induction xs with
  | nil => rfl
  | cons x rest ih =>
      cases passed : test x with
      | true =>
          rw [List.filter_cons_of_pos passed, Emits.forEach, Emits.forEach, ih, passed, when_true]
      | false =>
          rw [List.filter_cons_of_neg (by simp [passed]), Emits.forEach, ih, passed, when_false_seq]

theorem whileLoop_result {cond : σ → Bool} {body : σ → σ × ω}
    (kept : ∀ s, P s → cond s = true → P (body s).1) (fuel : Nat) {s : σ} {r : σ × List ω}
    (initial : P s) (result : Emits.whileLoop cond body fuel s = some r) :
    P r.1 ∧ cond r.1 = false := by
  induction fuel generalizing s r with
  | zero =>
      cases test : cond s with
      | true => simp [Emits.whileLoop, test] at result
      | false =>
          simp only [Emits.whileLoop, test] at result
          cases result
          exact ⟨initial, test⟩
  | succ fuel ih =>
      cases test : cond s with
      | true =>
          simp only [Emits.whileLoop, test, if_true, Option.map_eq_some_iff] at result
          obtain ⟨r', later, rfl⟩ := result
          have ended := ih (kept s initial test) later
          exact ended
      | false =>
          simp only [Emits.whileLoop, test] at result
          cases result
          exact ⟨initial, test⟩

/-! ## Fuel -/

def Extends (less more : Emits σ ω) : Prop := ∀ s r, less s = some r → more s = some r

theorem Extends.seq {a a' b b' : Emits σ ω} (h₁ : Extends a a') (h₂ : Extends b b') :
    Extends (Emits.seq a b) (Emits.seq a' b') := by
  intro s r result
  obtain ⟨⟨t, os⟩, first, result⟩ := Option.bind_eq_some_iff.mp result
  obtain ⟨⟨u, os'⟩, second, result⟩ := Option.bind_eq_some_iff.mp result
  simpa [Emits.seq, h₁ s _ first, h₂ t _ second] using result

theorem Extends.forEach {body body' : ι → Emits σ ω} (h : ∀ x, Extends (body x) (body' x))
    (xs : List ι) : Extends (Emits.forEach xs body) (Emits.forEach xs body') := by
  induction xs with
  | nil => exact fun _ _ => id
  | cons x rest ih => exact (h x).seq ih

theorem Extends.when {cond : σ → Bool} {a a' : Emits σ ω} (h : Extends a a') :
    Extends (Emits.when cond a) (Emits.when cond a') := by
  intro s r result
  cases test : cond s <;> simp only [Emits.when, test] at result ⊢
  · exact result
  · exact h s r result

theorem Extends.whileLoop {cond : σ → Bool} {body : σ → σ × ω} {n m : Nat} (le : n ≤ m) :
    Extends (Emits.whileLoop cond body n) (Emits.whileLoop cond body m) := by
  induction n generalizing m with
  | zero =>
      intro s r result
      cases test : cond s with
      | true => simp [Emits.whileLoop, test] at result
      | false => cases m <;> simpa [Emits.whileLoop, test] using result
  | succ n ih =>
      intro s r result
      cases m with
      | zero => omega
      | succ m =>
          cases test : cond s with
          | false => simpa [Emits.whileLoop, test] using result
          | true =>
              simp only [Emits.whileLoop, test, if_true, Option.map_eq_some_iff] at result ⊢
              obtain ⟨r', later, eq⟩ := result
              exact ⟨r', ih (Nat.le_of_succ_le_succ le) _ _ later, eq⟩

end Emits
end TtBhLinux.Common
