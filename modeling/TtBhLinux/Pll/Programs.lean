import TtBhLinux.Pll.Registers

/-!
# The two PLL ramps

`L2CPU::set_frequency` and `set_l2cpu_pll` read PLL_CNTL_5 and PLL_CNTL_1 once and then only write.
-/

namespace TtBhLinux.Pll
open Common

structure Write where
  addr : U64
  value : U32
  deriving DecidableEq

@[ext] structure Copies where
  postdivs : PLLCNTL5
  fbdiv : PLLCNTL1

def Copies.read (cntl5 cntl1 : U32) : Copies := ⟨.ofRaw cntl5, .ofRaw cntl1⟩

def Copies.writeCntl5 (s : Copies) : Write := ⟨pll4Base + pllCntl5, s.postdivs.raw⟩
def Copies.writeCntl1 (s : Copies) : Write := ⟨pll4Base + pllCntl1, s.fbdiv.raw⟩

def Copies.setPostdiv (s : Copies) (i : Fin 4) (v : U8) : Copies :=
  { s with postdivs := s.postdivs.setPostdiv i v }

def Copies.setFbdiv (s : Copies) (v : U16) : Copies := { s with fbdiv := s.fbdiv.setFbdiv v }

structure Target where
  fbdiv : U16
  postdiv : Fin 4 → U8

/-- `while (field != target) { field += one_step; write }` -/
def stepField {w : Nat} (get : Copies → BitVec w) (set : Copies → BitVec w → Copies)
    (write : Copies → Write) (fuel : Nat) (target one_step : BitVec w) : Emits Copies Write :=
  Emits.whileLoop (fun s => get s != target)
    (fun s =>
      let s' := set s (get s + one_step)
      (s', write s')) fuel

def stepPostdiv (i : Fin 4) : Nat → U8 → U8 → Emits Copies Write :=
  stepField (·.postdivs.postdiv i) (·.setPostdiv i ·) Copies.writeCntl5

def stepFbdiv : Nat → U16 → U16 → Emits Copies Write :=
  stepField (·.fbdiv.fbdiv) Copies.setFbdiv Copies.writeCntl1

/-! ## l2cpu.cpp -/

namespace L2CPU

def target : Target := ⟨140, fun _ => 1⟩

def ramp (fuel : Nat) (t : Target) : Emits Copies Write :=
  -- Step 1: Increase postdivs that need to go up
  Emits.seq (Emits.forEach allFields fun i =>
    Emits.when (fun s => s.postdivs.postdiv i < t.postdiv i)
      (stepPostdiv i fuel (t.postdiv i) 1)) <|
  -- Step 2: Adjust fbdiv
  Emits.seq (Emits.when (fun s => s.fbdiv.fbdiv != t.fbdiv) fun s =>
    stepFbdiv fuel t.fbdiv (if s.fbdiv.fbdiv < t.fbdiv then 1 else -1) s) <|
  -- Step 3: Decrease postdivs that need to go down
  Emits.forEach allFields fun i =>
    Emits.when (fun s => t.postdiv i < s.postdivs.postdiv i)
      (stepPostdiv i fuel (t.postdiv i) (-1))

def setFrequency (fuel : Nat) (cntl5 cntl1 : U32) : Option (List Write) :=
  (ramp fuel target (.read cntl5 cntl1)).map Prod.snd

end L2CPU

/-! ## clock.py -/

namespace Clock

def oneStep {w : Nat} (target cur : BitVec w) : Int :=
  max (min ((target.toNat : Int) - cur.toNat) 1) (-1)

def PLLCNTL5.step (fuel : Nat) (target : U8) (field : Fin 4) : Emits Copies Write := fun s =>
  stepPostdiv field fuel target (.ofInt 8 (oneStep target (s.postdivs.postdiv field))) s

def PLLCNTL1.stepFbdiv (fuel : Nat) (target : U16) : Emits Copies Write := fun s =>
  Pll.stepFbdiv fuel target (.ofInt 16 (oneStep target s.fbdiv.fbdiv)) s

def solutions : List (Nat × Target) :=
  [(200, ⟨128, fun _ => 15⟩), (1750, ⟨140, fun _ => 1⟩), (15, ⟨120, fun _ => 99⟩)]

def ramp (fuel : Nat) (sol : Target) : Emits Copies Write := fun s =>
  let increasing := allFields.filter fun i => s.postdivs.postdiv i < sol.postdiv i
  let decreasing := allFields.filter fun i => sol.postdiv i < s.postdivs.postdiv i
  Emits.seq (Emits.forEach increasing fun i => PLLCNTL5.step fuel (sol.postdiv i) i)
    (Emits.seq (PLLCNTL1.stepFbdiv fuel sol.fbdiv)
      (Emits.forEach decreasing fun i => PLLCNTL5.step fuel (sol.postdiv i) i)) s

def setTarget (fuel : Nat) (sol : Target) (cntl5 cntl1 : U32) : Option (List Write) :=
  (ramp fuel sol (.read cntl5 cntl1)).map Prod.snd

/-- `set_l2cpu_pll(chip, mhz)`; a frequency that `solutions` lacks raises a KeyError. -/
def setL2cpuPll (fuel : Nat) (mhz : Nat) (cntl5 cntl1 : U32) : Except String (Option (List Write)) :=
  match solutions.lookup mhz with
  | none => .error "KeyError"
  | some sol => .ok (setTarget fuel sol cntl5 cntl1)

end Clock

end TtBhLinux.Pll
