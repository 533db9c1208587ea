import TtBhLinux.Common.Words
import Mathlib.Data.List.Basic

/-!
# Memories with wrapping addresses

A memory gives every address of `w` bits a cell. `load` reads a region of cells and `store`
overwrites one; a region starts at any address and may wrap around the address space.
-/

namespace TtBhLinux.Common
variable {w : Nat} {α : Type*}

def InRegion (a : BitVec w) (n : Nat) (x : BitVec w) : Prop := (x - a).toNat < n

instance (a : BitVec w) (n : Nat) (x : BitVec w) : Decidable (InRegion a n x) :=
  inferInstanceAs (Decidable (_ < _))

def Apart (a : BitVec w) (n : Nat) (b : BitVec w) (m : Nat) : Prop :=
  ∀ x, InRegion a n x → ¬InRegion b m x

def load (mem : BitVec w → α) (a : BitVec w) (n : Nat) : List α :=
  (List.range n).map fun i => mem (a + .ofNat w i)

def store (mem : BitVec w → α) (a : BitVec w) (cells : List α) (x : BitVec w) : α :=
  cells[(x - a).toNat]?.getD (mem x)

def storeAll (mem : BitVec w → α) (writes : List (BitVec w × List α)) : BitVec w → α :=
  writes.foldl (fun mem write => store mem write.1 write.2) mem

def loadU16 (mem : U64 → U8) (a : U64) : U16 := mem (a + 1) ++ mem a

def loadU32 (mem : U64 → U8) (a : U64) : U32 := mem (a + 3) ++ mem (a + 2) ++ mem (a + 1) ++ mem a

def storeU32 (mem : U64 → U8) (a : U64) (value : U32) : U64 → U8 :=
  store mem a ((List.range 4).map fun i => value.extractLsb' (8 * i) 8)

def loadU64 (mem : U64 → U8) (a : U64) : U64 := loadU32 mem (a + 4) ++ loadU32 mem a

theorem Apart.symm {a b : BitVec w} {n m : Nat} (apart : Apart a n b m) : Apart b m a n :=
  fun x right left => apart x left right

theorem inRegion_offset (a : BitVec w) {i n : Nat} (lt : i < n) (fits : n ≤ 2 ^ w) :
    InRegion a n (a + .ofNat w i) := by
  rw [InRegion, BitVec.add_comm, BitVec.add_sub_cancel, BitVec.toNat_ofNat,
    Nat.mod_eq_of_lt (by omega)]
  exact lt

theorem InRegion.exists_offset {a x : BitVec w} {n : Nat} (h : InRegion a n x) :
    ∃ i < n, x = a + .ofNat w i :=
  ⟨(x - a).toNat, h, by rw [BitVec.ofNat_toNat, BitVec.setWidth_eq, BitVec.add_comm,
    BitVec.sub_add_cancel]⟩

theorem InRegion.start (a : BitVec w) {n : Nat} (nonempty : 0 < n) : InRegion a n a := by
  rw [InRegion, BitVec.sub_self]
  exact nonempty

theorem InRegion.mono {a x : BitVec w} {n m : Nat} (h : InRegion a n x) (le : n ≤ m) :
    InRegion a m x := Nat.lt_of_lt_of_le h le

theorem InRegion.shift {a x : BitVec w} {k n m : Nat} (h : InRegion (a + .ofNat w k) n x)
    (le : k + n ≤ m) (fits : m ≤ 2 ^ w) : InRegion a m x := by
  obtain ⟨i, lt, rfl⟩ := h.exists_offset
  rw [BitVec.add_assoc, ← BitVec.ofNat_add]
  exact inRegion_offset a (by omega) fits

theorem apart_of_le {a b : BitVec w} {n m : Nat} (before : a.toNat + n ≤ b.toNat)
    (fits : b.toNat + m ≤ 2 ^ w) : Apart a n b m := by
  intro x left right
  obtain ⟨i, i_lt, at_i⟩ := left.exists_offset
  obtain ⟨j, j_lt, at_j⟩ := right.exists_offset
  have bound := b.isLt
  have low : x.toNat = a.toNat + i := by
    rw [at_i, BitVec.toNat_add, BitVec.toNat_ofNat, Nat.add_mod_mod, Nat.mod_eq_of_lt (by omega)]
  have high : x.toNat = b.toNat + j := by
    rw [at_j, BitVec.toNat_add, BitVec.toNat_ofNat, Nat.add_mod_mod, Nat.mod_eq_of_lt (by omega)]
  omega

theorem apart_next {a : BitVec w} {n m : Nat} (fits : n + m ≤ 2 ^ w) :
    Apart a n (a + .ofNat w n) m := by
  intro x left right
  obtain ⟨j, lt, rfl⟩ := right.exists_offset
  rw [InRegion, BitVec.add_assoc, ← BitVec.ofNat_add, BitVec.add_comm, BitVec.add_sub_cancel,
    BitVec.toNat_ofNat, Nat.mod_eq_of_lt (by omega)] at left
  omega

theorem inRegion_one {a x : BitVec w} : InRegion a 1 x ↔ x = a := by
  constructor
  · intro inside
    obtain ⟨i, lt, rfl⟩ := inside.exists_offset
    obtain rfl := Nat.lt_one_iff.mp lt
    exact BitVec.add_zero a
  · rintro rfl
    exact .start x Nat.one_pos

@[simp] theorem load_length (mem : BitVec w → α) (a : BitVec w) (n : Nat) :
    (load mem a n).length = n := by simp [load]

theorem load_getElem (mem : BitVec w → α) (a : BitVec w) (n i : Nat)
    (h : i < (load mem a n).length) : (load mem a n)[i] = mem (a + .ofNat w i) := by
  simp [load]

theorem load_append (mem : BitVec w → α) (a : BitVec w) (n m : Nat) :
    load mem a (n + m) = load mem a n ++ load mem (a + .ofNat w n) m := by
  simp [load, List.range_add, BitVec.ofNat_add, BitVec.add_assoc]

theorem load_congr {mem mem' : BitVec w → α} {a : BitVec w} {n : Nat} (fits : n ≤ 2 ^ w)
    (same : ∀ x, InRegion a n x → mem' x = mem x) : load mem' a n = load mem a n :=
  List.map_congr_left fun _ member =>
    same _ (inRegion_offset a (List.mem_range.mp member) fits)

theorem store_inside (mem : BitVec w → α) (a : BitVec w) (cells : List α) {x : BitVec w}
    (inside : (x - a).toNat < cells.length) : store mem a cells x = cells[(x - a).toNat] := by
  rw [store, List.getElem?_eq_getElem inside, Option.getD_some]

theorem store_outside (mem : BitVec w → α) (a : BitVec w) {cells : List α} {x : BitVec w}
    (outside : ¬InRegion a cells.length x) : store mem a cells x = mem x := by
  rw [store, List.getElem?_eq_none (Nat.le_of_not_lt outside), Option.getD_none]

theorem store_ne {mem : BitVec w → α} {a x : BitVec w} {cells : List α} {b : α} (old : mem x ≠ b)
    (new : b ∉ cells) : store mem a cells x ≠ b := by
  by_cases inside : (x - a).toNat < cells.length
  · rw [store_inside mem a cells inside]
    exact fun same => new (same ▸ List.getElem_mem inside)
  · rwa [store_outside mem a inside]

theorem store_singleton (mem : BitVec w → α) (a : BitVec w) (x : α) : store mem a [x] a = x := by
  simp [store]

@[simp] theorem store_nil (mem : BitVec w → α) (a : BitVec w) : store mem a [] = mem := rfl

theorem load_store (mem : BitVec w → α) (a : BitVec w) (cells : List α)
    (fits : cells.length ≤ 2 ^ w) : load (store mem a cells) a cells.length = cells := by
  apply List.ext_getElem (load_length _ _ _)
  intro i left right
  have inside := inRegion_offset a right fits
  rw [load_getElem, store_inside mem a cells inside]
  congr 1
  rw [BitVec.add_comm, BitVec.add_sub_cancel, BitVec.toNat_ofNat, Nat.mod_eq_of_lt (by omega)]

theorem load_store_apart (mem : BitVec w → α) {a b : BitVec w} {cells : List α} {n : Nat}
    (fits : n ≤ 2 ^ w) (apart : Apart a cells.length b n) :
    load (store mem a cells) b n = load mem b n :=
  load_congr fits fun x inside => store_outside mem a fun stored => apart x stored inside

theorem loadU16_congr {mem mem' : U64 → U8} {a : U64}
    (same : ∀ x, InRegion a 2 x → mem' x = mem x) : loadU16 mem' a = loadU16 mem a := by
  have at_offset (i : Nat) (lt : i < 2) : mem' (a + .ofNat 64 i) = mem (a + .ofNat 64 i) :=
    same _ (inRegion_offset a lt (by omega))
  have zero : mem' a = mem a := by simpa using at_offset 0 (by omega)
  have one : mem' (a + 1) = mem (a + 1) := at_offset 1 (by omega)
  rw [loadU16, loadU16, zero, one]

theorem loadU32_congr {mem mem' : U64 → U8} {a : U64}
    (same : ∀ x, InRegion a 4 x → mem' x = mem x) : loadU32 mem' a = loadU32 mem a := by
  have at_offset (i : Nat) (lt : i < 4) : mem' (a + .ofNat 64 i) = mem (a + .ofNat 64 i) :=
    same _ (inRegion_offset a lt (by omega))
  have zero : mem' a = mem a := by simpa using at_offset 0 (by omega)
  have one : mem' (a + 1) = mem (a + 1) := at_offset 1 (by omega)
  have two : mem' (a + 2) = mem (a + 2) := at_offset 2 (by omega)
  have three : mem' (a + 3) = mem (a + 3) := at_offset 3 (by omega)
  rw [loadU32, loadU32, zero, one, two, three]

theorem loadU64_congr {mem mem' : U64 → U8} {a : U64}
    (same : ∀ x, InRegion a 8 x → mem' x = mem x) : loadU64 mem' a = loadU64 mem a := by
  have low : loadU32 mem' a = loadU32 mem a :=
    loadU32_congr fun x inside => same x (inside.mono (by decide))
  have high : loadU32 mem' (a + 4) = loadU32 mem (a + 4) := by
    apply loadU32_congr
    intro x inside
    have later : InRegion (a + .ofNat 64 4) 4 x := inside
    exact same x (later.shift (by decide) (by decide))
  rw [loadU64, loadU64, low, high]

/-! ## Several stores -/

theorem storeAll_outside (mem : BitVec w → α) {writes : List (BitVec w × List α)} {x : BitVec w}
    (outside : ∀ write ∈ writes, ¬InRegion write.1 write.2.length x) :
    storeAll mem writes x = mem x := by
  induction writes generalizing mem with
  | nil => rfl
  | cons write rest ih =>
      have first := store_outside mem write.1 (outside write List.mem_cons_self)
      rw [← first]
      exact ih _ fun other member => outside other (List.mem_cons_of_mem _ member)

theorem load_storeAll_apart (mem : BitVec w → α) {writes : List (BitVec w × List α)} {b : BitVec w}
    {n : Nat} (fits : n ≤ 2 ^ w) (apart : ∀ write ∈ writes, Apart write.1 write.2.length b n) :
    load (storeAll mem writes) b n = load mem b n :=
  load_congr fits fun x inside => storeAll_outside mem fun write member stored =>
    apart write member x stored inside

theorem load_storeAll (mem : BitVec w → α) {writes : List (BitVec w × List α)}
    (apart : writes.Pairwise fun a b => Apart a.1 a.2.length b.1 b.2.length)
    (fits : ∀ write ∈ writes, write.2.length ≤ 2 ^ w) :
    ∀ write ∈ writes, load (storeAll mem writes) write.1 write.2.length = write.2 := by
  induction writes generalizing mem with
  | nil => exact fun _ member => absurd member List.not_mem_nil
  | cons first rest ih =>
      obtain ⟨others, apart⟩ := List.pairwise_cons.mp apart
      intro write member
      rcases List.mem_cons.mp member with rfl | member
      · have fit := fits write List.mem_cons_self
        have later : load (storeAll (store mem write.1 write.2) rest) write.1 write.2.length =
            load (store mem write.1 write.2) write.1 write.2.length :=
          load_storeAll_apart _ fit fun other member => (others other member).symm
        exact later.trans (load_store mem write.1 write.2 fit)
      · have fits_rest := fun other member => fits other (List.mem_cons_of_mem _ member)
        exact ih _ apart fits_rest write member

end TtBhLinux.Common
