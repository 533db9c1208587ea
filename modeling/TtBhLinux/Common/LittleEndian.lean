import Mathlib.Tactic.IntervalCases
import Mathlib.Tactic.Ring
import TtBhLinux.Common.Memory

/-!
# Words in a memory of bytes

The least significant byte comes first.
-/

namespace TtBhLinux.Common

def wordBytes (value : U32) : List U8 := (List.range 4).map fun i => value.extractLsb' (8 * i) 8

@[simp] theorem wordBytes_length (value : U32) : (wordBytes value).length = 4 := rfl

@[simp] theorem wordBytes_getElem (value : U32) (i : Nat) (h : i < (wordBytes value).length) :
    (wordBytes value)[i] = value.extractLsb' (8 * i) 8 := by
  simp [wordBytes]

theorem wordBytes_join (value : U32) :
    value.extractLsb' 24 8 ++ value.extractLsb' 16 8 ++ value.extractLsb' 8 8 ++
      value.extractLsb' 0 8 = value := by
  apply BitVec.eq_of_getLsbD_eq
  intro i hi
  simp only [BitVec.getLsbD_append, BitVec.getLsbD_extractLsb']
  interval_cases i <;> simp

theorem loadU32_of_bytes {mem : U64 → U8} {a : U64} {value : U32}
    (bytes : ∀ i (_ : i < 4), mem (a + .ofNat 64 i) = value.extractLsb' (8 * i) 8) :
    loadU32 mem a = value := by
  have zero : mem a = value.extractLsb' 0 8 := by simpa using bytes 0 (by omega)
  have one : mem (a + 1) = value.extractLsb' 8 8 := bytes 1 (by omega)
  have two : mem (a + 2) = value.extractLsb' 16 8 := bytes 2 (by omega)
  have three : mem (a + 3) = value.extractLsb' 24 8 := bytes 3 (by omega)
  rw [loadU32, zero, one, two, three, wordBytes_join]

theorem loadU32_store (mem : U64 → U8) (a : U64) (value : U32) :
    loadU32 (store mem a (wordBytes value)) a = value := by
  apply loadU32_of_bytes
  intro i lt
  have offset : (a + .ofNat 64 i - a).toNat = i := by
    rw [BitVec.add_comm, BitVec.add_sub_cancel, BitVec.toNat_ofNat, Nat.mod_eq_of_lt (by omega)]
  rw [store_inside mem a (wordBytes value) (by rw [offset]; exact lt), wordBytes_getElem, offset]

theorem store_cons (mem : U64 → U8) (a : U64) (byte : U8) {rest : List U8}
    (fits : rest.length < 2 ^ 64) :
    store (store mem a [byte]) (a + 1) rest = store mem a (byte :: rest) := by
  funext x
  have one : (1 : U64).toNat = 1 := rfl
  have back : x - (a + 1) = x - a - 1 := by ring
  unfold store
  rw [back]
  cases offset : (x - a).toNat with
  | zero =>
      have far : rest.length ≤ (x - a - 1).toNat := by
        rw [BitVec.toNat_sub, offset, one]
        omega
      rw [List.getElem?_eq_none far]
      rfl
  | succ k =>
      have near : (x - a - 1).toNat = k := by
        rw [BitVec.toNat_sub_of_le (by rw [BitVec.le_def, one]; omega), offset, one]
        rfl
      rw [near]
      rfl

end TtBhLinux.Common
