import TtBhLinux.Common.Words

/-!
# Big-endian bytes
-/

namespace TtBhLinux.Common

/-- The last `n` bytes of a number, the most significant one first. -/
def toBytes : Nat → Nat → List U8
  | 0, _ => []
  | n + 1, value => toBytes n (value / 256) ++ [.ofNat 8 value]

def ofBytes (bytes : List U8) : Nat := bytes.foldl (fun value byte => value * 256 + byte.toNat) 0

@[simp] theorem toBytes_length (n value : Nat) : (toBytes n value).length = n := by
  induction n generalizing value with
  | zero => rfl
  | succ n ih => rw [toBytes, List.length_append, ih, List.length_singleton]

theorem ofBytes_toBytes {n value : Nat} (fits : value < 256 ^ n) :
    ofBytes (toBytes n value) = value := by
  induction n generalizing value with
  | zero => exact (Nat.lt_one_iff.mp fits).symm
  | succ n ih =>
      have high : ofBytes (toBytes n (value / 256)) = value / 256 :=
        ih (Nat.div_lt_of_lt_mul (by rwa [Nat.pow_succ, Nat.mul_comm] at fits))
      have last : ofBytes (toBytes (n + 1) value) =
          ofBytes (toBytes n (value / 256)) * 256 + value % 256 := by
        simp [toBytes, ofBytes]
      rw [last, high, Nat.div_add_mod']

end TtBhLinux.Common
