import TtBhLinux.Common.Emits
import TtBhLinux.Common.Words
import Mathlib.Data.Fintype.Pi
import Mathlib.Tactic.FinCases
import Mathlib.Tactic.IntervalCases

/-!
# The PLL control registers

The field views that `l2cpu.cpp` (as unions) and `clock.py` (as little-endian ctypes structures) put
on the 32-bit words of PLL_CNTL_5 and PLL_CNTL_1.
-/

namespace TtBhLinux.Pll
open Common

def pll4Base : U64 := 0x80020500
def pllCntl1 : U64 := 0x4
def pllCntl5 : U64 := 0x14

@[ext] structure PLLCNTL5 where
  postdiv : Fin 4 → U8

@[ext] structure PLLCNTL1 where
  refdiv : U8
  postdiv : U8
  fbdiv : U16

def PLLCNTL5.ofRaw (raw : U32) : PLLCNTL5 := ⟨fun i => raw.extractLsb' (8 * i) 8⟩

def PLLCNTL5.raw (r : PLLCNTL5) : U32 := r.postdiv 3 ++ r.postdiv 2 ++ r.postdiv 1 ++ r.postdiv 0

def allFields : List (Fin 4) := [0, 1, 2, 3]

theorem mem_allFields (i : Fin 4) : i ∈ allFields := by fin_cases i <;> simp [allFields]

def PLLCNTL1.ofRaw (raw : U32) : PLLCNTL1 :=
  ⟨raw.extractLsb' 0 8, raw.extractLsb' 8 8, raw.extractLsb' 16 16⟩

def PLLCNTL1.raw (r : PLLCNTL1) : U32 := r.fbdiv ++ r.postdiv ++ r.refdiv

@[simp] theorem PLLCNTL5.ofRaw_raw (r : PLLCNTL5) : ofRaw r.raw = r := by
  ext i : 2
  apply BitVec.eq_of_getLsbD_eq
  intro j hj
  fin_cases i <;> simp only [ofRaw, raw, BitVec.getLsbD_extractLsb', BitVec.getLsbD_append] <;>
    simp (disch := omega) [hj]
  all_goals interval_cases j <;> simp

@[simp] theorem PLLCNTL1.ofRaw_raw (r : PLLCNTL1) : ofRaw r.raw = r := by
  ext : 1 <;> apply BitVec.eq_of_getLsbD_eq <;> intro j hj <;>
    simp only [ofRaw, raw, BitVec.getLsbD_extractLsb', BitVec.getLsbD_append] <;>
    interval_cases j <;> simp

def PLLCNTL5.setPostdiv (r : PLLCNTL5) (i : Fin 4) (v : U8) : PLLCNTL5 :=
  ⟨Function.update r.postdiv i v⟩

def PLLCNTL1.setFbdiv (r : PLLCNTL1) (v : U16) : PLLCNTL1 := { r with fbdiv := v }

@[simp] theorem PLLCNTL5.setPostdiv_self (r : PLLCNTL5) (i : Fin 4) (v : U8) :
    (r.setPostdiv i v).postdiv i = v := by simp [setPostdiv]

end TtBhLinux.Pll
