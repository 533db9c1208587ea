import Mathlib.Data.List.Basic
import Mathlib.Logic.Function.Basic
import Mathlib.Data.Nat.ModEq
import Mathlib.Tactic.Ring

/-!
# Circular buffers

`window N buf start count` lists `count` slots of a buffer of `N` slots from index `start` on, and
`used N head tail` is the number of slots from `tail` up to `head`, both read modulo `N`.
-/

namespace TtBhLinux.Common
variable {α : Type*}

def used (N head tail : Nat) : Nat := (head % N + (N - tail % N)) % N

def window (N : Nat) (buf : Nat → α) (start count : Nat) : List α :=
  (List.range count).map fun i => buf ((start + i) % N)

section Used
variable {N : Nat} (pos : 0 < N)
include pos

theorem used_lt (head tail : Nat) : used N head tail < N := Nat.mod_lt _ pos

theorem add_used (head tail : Nat) : (tail + used N head tail) % N = head % N := by
  have lt := Nat.mod_lt tail pos
  calc (tail + used N head tail) % N
      = (tail % N + (head % N + (N - tail % N))) % N := by simp [used, Nat.add_mod]
    _ = (head % N + N) % N := by congr 1; omega
    _ = head % N := by simp

theorem used_eq_of_add {head tail n : Nat} (lt : n < N) (eq : (tail + n) % N = head % N) :
    used N head tail = n := by
  have bound := Nat.mod_lt tail pos
  calc used N head tail
      = (tail % N + n + (N - tail % N)) % N := by simp [used, ← eq, Nat.add_mod]
    _ = (n + N) % N := by congr 1; omega
    _ = n := by simp [Nat.mod_eq_of_lt lt]

theorem used_eq_zero (head tail : Nat) : used N head tail = 0 ↔ head % N = tail % N := by
  constructor
  · intro h
    have := add_used pos head tail
    rw [h] at this
    exact this.symm
  · exact fun h => used_eq_of_add pos pos (by simpa using h.symm)

theorem used_succ_lt (head tail : Nat) :
    used N head tail + 1 < N ↔ (head + 1) % N ≠ tail % N := by
  have lt := used_lt pos head tail
  have sum := add_used pos head tail
  have next : (tail + (used N head tail + 1)) % N = (head + 1) % N := by
    rw [← Nat.add_assoc, Nat.add_mod, sum, ← Nat.add_mod]
  constructor
  · intro room eq
    have := used_eq_of_add pos room (next.trans eq)
    rw [(used_eq_zero pos tail tail).mpr rfl] at this
    omega
  · intro ne
    by_contra full
    rw [show used N head tail + 1 = N by omega, Nat.add_mod_right] at next
    exact ne next.symm

theorem used_head_succ {head tail : Nat} (room : used N head tail + 1 < N) :
    used N (head + 1) tail = used N head tail + 1 := by
  apply used_eq_of_add pos room
  rw [← Nat.add_assoc, Nat.add_mod, add_used pos, ← Nat.add_mod]

theorem used_tail_succ {head tail : Nat} (some : 0 < used N head tail) :
    used N head (tail + 1) = used N head tail - 1 := by
  have lt := used_lt pos head tail
  apply used_eq_of_add pos (by omega)
  rw [Nat.add_assoc, Nat.add_sub_cancel' some, add_used pos]

omit pos in
theorem used_congr {head head' tail tail' : Nat} (h : head % N = head' % N)
    (t : tail % N = tail' % N) : used N head tail = used N head' tail' := by
  rw [used, used, h, t]

end Used

section Window
variable {N : Nat}

@[simp] theorem window_length (buf : Nat → α) (start count : Nat) :
    (window N buf start count).length = count := by simp [window]

theorem window_congr (buf : Nat → α) {start start' : Nat} (count : Nat)
    (h : start % N = start' % N) : window N buf start count = window N buf start' count := by
  apply List.map_congr_left
  intro i _
  rw [Nat.add_mod, h, ← Nat.add_mod]

theorem window_succ (buf : Nat → α) (start count : Nat) :
    window N buf start (count + 1) = window N buf start count ++ [buf ((start + count) % N)] := by
  simp [window, List.range_succ]

theorem window_cons (buf : Nat → α) (start count : Nat) :
    window N buf start (count + 1) = buf (start % N) :: window N buf (start + 1) count := by
  simp only [window, List.range_succ_eq_map, List.map_cons, List.map_map, Nat.add_zero]
  congr 1
  apply List.map_congr_left
  intro i _
  rw [Function.comp_apply, Nat.succ_eq_add_one, show start + 1 + i = start + (i + 1) by ring]

theorem slot_ne {start count i : Nat} (lt : i < count) (room : count < N) :
    (start + i) % N ≠ (start + count) % N := by
  intro eq
  have := Nat.ModEq.add_left_cancel' (n := N) start eq
  rw [Nat.ModEq, Nat.mod_eq_of_lt (by omega), Nat.mod_eq_of_lt room] at this
  omega

theorem window_update (buf : Nat → α) {start count : Nat} (c : α) (room : count < N) :
    window N (Function.update buf ((start + count) % N) c) start count =
      window N buf start count := by
  apply List.map_congr_left
  intro i member
  exact Function.update_of_ne (slot_ne (List.mem_range.mp member) room) _ _

end Window

/-! ## Logs in a ring -/

section Log
variable {N : Nat}

/-- The ring holds the entries of the log from number `lo` on, each at its number modulo `N`. -/
def Keeps (N : Nat) (ring : Nat → α) (log : List α) (lo : Nat) : Prop :=
  ∀ j, lo ≤ j → (h : j < log.length) → ring (j % N) = log[j]

theorem mod_ne_of_near {j k : Nat} (lt : j < k) (near : k < j + N) : j % N ≠ k % N := by
  obtain ⟨d, rfl⟩ := Nat.exists_eq_add_of_lt lt
  have ne : (j + 0) % N ≠ (j + (d + 1)) % N := slot_ne (by omega) (by omega)
  rwa [Nat.add_zero, ← Nat.add_assoc] at ne

theorem Keeps.drop {ring : Nat → α} {log : List α} {lo lo' : Nat} (keeps : Keeps N ring log lo)
    (le : lo ≤ lo') : Keeps N ring log lo' :=
  fun j from_lo h => keeps j (le.trans from_lo) h

theorem Keeps.store {ring : Nat → α} {log : List α} {lo : Nat} (keeps : Keeps N ring log lo)
    (room : log.length < lo + N) (a : α) :
    Keeps N (Function.update ring (log.length % N) a) log lo := by
  intro j from_lo h
  rw [Function.update_of_ne (mod_ne_of_near h (by omega))]
  exact keeps j from_lo h

theorem Keeps.append {ring : Nat → α} {log : List α} {lo : Nat} {a : α}
    (keeps : Keeps N ring log lo) (stored : ring (log.length % N) = a) :
    Keeps N ring (log ++ [a]) lo := by
  intro j from_lo h
  by_cases old : j < log.length
  · rw [List.getElem_append_left old]
    exact keeps j from_lo old
  · obtain rfl : j = log.length := by simp at h; omega
    simpa using stored

end Log
end TtBhLinux.Common
