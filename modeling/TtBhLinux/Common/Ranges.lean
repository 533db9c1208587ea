import TtBhLinux.Common.Memory
import Mathlib.Tactic.Ring

/-!
# Ranges

An access is a range of addresses, at an offset from a pointer. Whether it stays in a region does
not change when the pointers and the region are moved together.
-/

namespace TtBhLinux.Common
variable {w : Nat} {π : Type*}

structure Range (w : Nat) where
  addr : BitVec w
  len : Nat

def Range.Contains (range : Range w) (x : BitVec w) : Prop := InRegion range.addr range.len x

def Range.Inside (range : Range w) (base : BitVec w) (size : Nat) : Prop :=
  ∀ i < range.len, InRegion base size (range.addr + .ofNat w i)

/-- The same without any wrap-around: an empty range is anywhere. -/
def Range.Within (range : Range w) (lower upper : Nat) : Prop :=
  range.len = 0 ∨ lower ≤ range.addr.toNat ∧ range.addr.toNat + range.len ≤ upper

instance (range : Range w) (lower upper : Nat) : Decidable (range.Within lower upper) :=
  inferInstanceAs (Decidable (_ ∨ _))

theorem inRegion_iff {base x : BitVec w} {size : Nat} (fits : base.toNat + size < 2 ^ w) :
    InRegion base size x ↔ base.toNat ≤ x.toNat ∧ x.toNat < base.toNat + size := by
  have := x.isLt
  rw [InRegion, BitVec.toNat_sub]
  constructor
  · intro below
    by_cases le : base.toNat ≤ x.toNat
    · rw [show 2 ^ w - base.toNat + x.toNat = x.toNat - base.toNat + 2 ^ w by omega,
        Nat.add_mod_right, Nat.mod_eq_of_lt (by omega)] at below
      omega
    · rw [Nat.mod_eq_of_lt (by omega)] at below
      omega
  · rintro ⟨le, lt⟩
    rw [show 2 ^ w - base.toNat + x.toNat = x.toNat - base.toNat + 2 ^ w by omega,
      Nat.add_mod_right, Nat.mod_eq_of_lt (by omega)]
    omega

theorem Range.inside_iff {range : Range w} {base : BitVec w} {size : Nat}
    (fits : base.toNat + size < 2 ^ w) :
    range.Inside base size ↔ range.Within base.toNat (base.toNat + size) := by
  have offset {i : Nat} (small : range.addr.toNat + i < 2 ^ w) :
      (range.addr + BitVec.ofNat w i).toNat = range.addr.toNat + i := by
    rw [BitVec.toNat_add, BitVec.toNat_ofNat, Nat.add_mod_mod, Nat.mod_eq_of_lt small]
  constructor
  · intro inside
    rcases Nat.eq_zero_or_pos range.len with empty | nonempty
    · exact .inl empty
    · have first := inside 0 nonempty
      rw [inRegion_iff fits, offset (by omega)] at first
      refine .inr ⟨first.1, ?_⟩
      -- otherwise the range has the address right behind the region
      by_contra beyond
      have behind := inside (base.toNat + size - range.addr.toNat) (by omega)
      rw [inRegion_iff fits, offset (by omega)] at behind
      omega
  · rintro (empty | ⟨lower, upper⟩) i lt
    · omega
    · rw [inRegion_iff fits, offset (by omega)]
      omega

structure Touch (π : Type*) (w : Nat) where
  pointer : π
  offset : BitVec w
  len : Nat

def Touch.range (touch : Touch π w) (value : π → BitVec w) : Range w :=
  ⟨value touch.pointer + touch.offset, touch.len⟩

@[simp] theorem Touch.range_contains {touch : Touch π w} {value : π → BitVec w} {x : BitVec w} :
    (touch.range value).Contains x ↔ InRegion (value touch.pointer + touch.offset) touch.len x :=
  Iff.rfl

theorem Touch.inside_iff {touch : Touch π w} {value moved : π → BitVec w} {d base : BitVec w}
    {size : Nat} (eq : moved touch.pointer = value touch.pointer + d) :
    (touch.range moved).Inside (base + d) size ↔ (touch.range value).Inside base size := by
  have same (i : BitVec w) :
      value touch.pointer + d + touch.offset + i - (base + d) =
        value touch.pointer + touch.offset + i - base := by
    ring
  simp only [Range.Inside, Touch.range, InRegion, eq, same]

theorem Touch.all_inside_iff {touches : List (Touch π w)} {value moved : π → BitVec w}
    {d base : BitVec w} {size : Nat}
    (eq : ∀ touch ∈ touches, moved touch.pointer = value touch.pointer + d) :
    (∀ range ∈ touches.map (·.range moved), range.Inside (base + d) size) ↔
      ∀ range ∈ touches.map (·.range value), range.Inside base size := by
  rw [List.forall_mem_map, List.forall_mem_map]
  exact forall₂_congr fun touch member => inside_iff (eq touch member)

end TtBhLinux.Common
