import TtBhLinux.L2cpu.MemoryPtr

/-!
# The assertions of read32 and write32

They are evaluated in 64 bits. Where `offset + addr + 4` wraps around, an aligned access passes them
although its bytes are not in the window.
-/

namespace TtBhLinux.L2cpu
open Common

def InBounds (size offset addr : U64) : Prop :=
  (offset.toNat + addr.toNat) % 4 = 0 ∧ offset.toNat + addr.toNat + 4 ≤ size.toNat

structure ExactBounds (size : U64) (coordinates : Xy) (target base addr : U64) : Prop where
  read : ∀ mem, ((TlbWindow.new size coordinates target base).read32 mem addr).isSome ↔
    InBounds size (target &&& (size - 1)) addr
  write : ∀ mem value,
    ((TlbWindow.new size coordinates target base).write32 mem addr value).isSome ↔
      InBounds size (target &&& (size - 1)) addr
  /-- The bytes that an access touches, and what the window shows there. -/
  touches : ∀ mem, ((TlbWindow.new size coordinates target base).read32 mem addr).isSome →
    ∀ j < 4, ∀ host : HostMap,
      let window := TlbWindow.new size coordinates target base
      let p := window.data + window.offset + addr + .ofNat 64 j
      InRegion base size.toNat p ∧
        window.map host p = some ⟨coordinates, target + addr + .ofNat 64 j⟩

def Unwrapped (size target addr : U64) : Prop :=
  target.toNat % size.toNat + addr.toNat + 4 < 2 ^ 64 ∨
    (target.toNat % size.toNat + addr.toNat) % 4 ≠ 0

section
variable {size : U64} {k : Nat}

theorem size_eq (lower : 2 ≤ k) (power : size.toNat = 2 ^ k) : ∃ q, size.toNat = 4 * q := by
  obtain ⟨n, rfl⟩ := Nat.exists_eq_add_of_le lower
  exact ⟨2 ^ n, by rw [power, Nat.pow_add]⟩

theorem offset_eq (power : size.toNat = 2 ^ k) (target : U64) :
    (target &&& (size - 1)).toNat = target.toNat % size.toNat := by
  have positive : 0 < size.toNat := by
    rw [power]
    exact Nat.two_pow_pos k
  have pred : (size - 1).toNat = 2 ^ k - 1 := by
    rw [BitVec.toNat_sub_of_le (by rw [BitVec.le_def]; exact positive), power]
    rfl
  rw [BitVec.toNat_and, pred, Nat.and_two_pow_sub_one_eq_mod, power]

theorem asserted_iff (offset addr : U64) :
    offset + addr + 4 ≤ size ∧ (offset + addr) % 4 = 0 ↔
      (offset.toNat + addr.toNat + 4) % 2 ^ 64 ≤ size.toNat ∧
        (offset.toNat + addr.toNat) % 4 = 0 := by
  have four : (4 : U64).toNat = 4 := rfl
  have sum : (offset + addr + 4).toNat = (offset.toNat + addr.toNat + 4) % 2 ^ 64 := by
    rw [BitVec.toNat_add, BitVec.toNat_add, four]
    omega
  have rest : ((offset + addr) % 4).toNat = (offset.toNat + addr.toNat) % 4 := by
    rw [BitVec.toNat_umod, BitVec.toNat_add, four]
    omega
  rw [BitVec.le_def, sum, ← BitVec.toNat_inj, rest]
  rfl

theorem asserted_exact (lower : 2 ≤ k) (power : size.toNat = 2 ^ k) {offset : U64}
    (below : offset.toNat < size.toNat) (addr : U64) :
    (offset + addr + 4 ≤ size ∧ (offset + addr) % 4 = 0 ↔ InBounds size offset addr) ↔
      offset.toNat + addr.toNat + 4 < 2 ^ 64 ∨ (offset.toNat + addr.toNat) % 4 ≠ 0 := by
  obtain ⟨q, four⟩ := size_eq lower power
  have bound := size.isLt
  have wraps := addr.isLt
  rw [asserted_iff, InBounds]
  omega

end

theorem exact_bounds_iff (size : U64) (k : Nat) (lower : 2 ≤ k) (power : size.toNat = 2 ^ k)
    (coordinates : Xy) (target base addr : U64) :
    ExactBounds size coordinates target base addr ↔ Unwrapped size target addr := by
  have positive : 0 < size.toNat := by
    rw [power]
    exact Nat.two_pow_pos k
  have exact_iff := asserted_exact lower power (offset_lt positive target) addr
  have offset := offset_eq power target
  have read (mem : U64 → U8) :
      ((TlbWindow.new size coordinates target base).read32 mem addr).isSome ↔
        (target &&& (size - 1)) + addr + 4 ≤ size ∧ ((target &&& (size - 1)) + addr) % 4 = 0 := by
    rw [TlbWindow.read32]
    split <;> simp_all [TlbWindow.new]
  have write (mem : U64 → U8) (value : U32) :
      ((TlbWindow.new size coordinates target base).write32 mem addr value).isSome ↔
        (target &&& (size - 1)) + addr + 4 ≤ size ∧ ((target &&& (size - 1)) + addr) % 4 = 0 := by
    rw [TlbWindow.write32]
    split <;> simp_all [TlbWindow.new]
  rw [Unwrapped, ← offset, ← exact_iff]
  constructor
  · intro exactly
    exact (read fun _ => 0).symm.trans (exactly.read fun _ => 0)
  · intro same
    refine ⟨fun mem => (read mem).trans same, fun mem value => (write mem value).trans same,
      fun mem passes j lt host => ?_⟩
    intro window p
    obtain ⟨-, inside⟩ := same.mp ((read mem).mp passes)
    have within : ((target &&& (size - 1)) + (addr + .ofNat 64 j)).toNat < size.toNat := by
      rw [BitVec.toNat_add, BitVec.toNat_add, BitVec.toNat_ofNat]
      omega
    have at_p : p = window.getWindow + (addr + .ofNat 64 j) :=
      BitVec.add_assoc _ _ _
    have shown := window_shows coordinates target base (addr + BitVec.ofNat 64 j) host within
    rw [at_p, BitVec.add_assoc target]
    exact ⟨window_inside coordinates target base _ within, shown⟩

theorem exact_bounds_last_word :
    ExactBounds twoMeg ⟨8, 3⟩ 0x400030000000 0x7f0000000000 0x1ffffc :=
  (exact_bounds_iff twoMeg 21 (by decide) (by decide) ⟨8, 3⟩ 0x400030000000 0x7f0000000000
    0x1ffffc).mpr (.inl (by decide))

/-- The word in front of the window passes both assertions. -/
theorem word_before_window :
    ¬∀ (size : U64) (k : Nat) (coordinates : Xy) (target base addr : U64), 2 ≤ k →
      size.toNat = 2 ^ k → ExactBounds size coordinates target base addr := by
  intro exactly
  have bounds := exactly twoMeg 21 ⟨8, 3⟩ 0 0x7f0000000000 0xfffffffffffffffc (by decide) (by decide)
  have passes : ((TlbWindow.new twoMeg ⟨8, 3⟩ 0 0x7f0000000000).read32 (fun _ => 0)
    0xfffffffffffffffc).isSome := by decide
  exact absurd ((bounds.read fun _ => 0).mp passes).2 (by decide)

end TtBhLinux.L2cpu
